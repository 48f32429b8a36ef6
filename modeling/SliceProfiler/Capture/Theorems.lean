import SliceProfiler.Capture.Lemmas.Layout
import SliceProfiler.Capture.Lemmas.OffCpu
import SliceProfiler.Capture.Lemmas.Replay
import SliceProfiler.Capture.Lemmas.Valid

/-!
# Theorems on the profile of a capture
-/

namespace SliceProfiler

open Lib

/-! ## Validity -/

/-- The profile of a sequence of events with identities is valid exactly when the boundaries of each
identity are in order and the samples of a retained identity are on its thread. -/
theorem collectEvents_validate_iff {p : Profile} {es : List CollectorEvent} (hp : p.Fresh)
    (he : ∀ e ∈ es, e.Tagged) (hf : KnownFunctions p es) (hstacks : (framesIn es).card < u32Max)
    (hsamples : es.countP CollectorEvent.isSample ≤ u64Max) (names : Map Nat String) (t : Nat) :
    (rebuildThreads (collectEvents p es t) names).validate = .ok () ↔
      OrderedBoundaries es ∧ SamplesOnThread es := by
  obtain ⟨ks, ss, h⟩ := collected he hstacks.le hp.stacks hp.samples t
  rw [← h.wellFormed_iff hp hf hsamples names]
  exact ⟨Profile.WellFormed.of_validate, Profile.WellFormed.validate⟩

def workFunction : Function := ⟨1, "target", none, 0x1000, "_Z4workv", "work()", none, none⟩

def workRequest : CaptureRequest := ⟨workFunction, ["target"]⟩

def workFrame : Frame := ⟨some 1, "work()", some "target", some 0x1000⟩

/-- The return of the identity is stamped before its entry. -/
def returnBeforeEntry : List CollectorEvent := [.entry (some 1) 1 7 20, .ret (some 1) 1 7 10]

/-- A sample of the identity comes from another thread than its boundaries. -/
def sampleElsewhere : List CollectorEvent :=
  [.entry (some 1) 1 7 10, .sample (some 1) ⟨8, 15, 0, .onCpu, 1000000, [workFrame]⟩, .ret (some 1) 1 7 20]

theorem freshEmptyProfile (request : CaptureRequest) (now : Nat) (release : String) :
    (emptyProfile request now release).Fresh :=
  ⟨rfl, List.nodup_singleton _, rfl, rfl, rfl, rfl, rfl⟩

theorem collectEvents_not_valid :
    (∀ es ∈ [returnBeforeEntry, sampleElsewhere], (∀ e ∈ es, e.Tagged) ∧
      KnownFunctions (emptyProfile workRequest 0 "6.6") es ∧ (framesIn es).card < u32Max) ∧
    (rebuildThreads (collectEvents (emptyProfile workRequest 0 "6.6") returnBeforeEntry 30) ∅).validate =
      .error (.invalidInvocationBounds 1) ∧
    (rebuildThreads (collectEvents (emptyProfile workRequest 0 "6.6") sampleElsewhere 30) ∅).validate =
      .error (.sampleThreadMismatch 1 8 7) := by
  unfold KnownFunctions
  decide

/-- One call with two samples, one of which is late, and an unfinished call. -/
def twoCalls : List CollectorEvent :=
  [.entry (some 1) 1 7 10, .sample (some 1) ⟨7, 15, 0, .onCpu, 1000000, [workFrame]⟩, .ret (some 1) 1 7 20,
    .sample (some 1) ⟨7, 21, 0, .onCpu, 1000000, [workFrame]⟩, .entry (some 2) 1 7 25]

theorem twoCalls_validate_iff :
    (rebuildThreads (collectEvents (emptyProfile workRequest 0 "6.6") twoCalls 30) ∅).validate = .ok () ↔
      OrderedBoundaries twoCalls ∧ SamplesOnThread twoCalls :=
  collectEvents_validate_iff (freshEmptyProfile _ _ _) (by decide) (by unfold KnownFunctions; decide)
    (by decide) (by decide) ∅ 30

/-! ## Delivery order -/

/-- The profiles hold the same invocations and counters, and the same samples up to their order and the
names of the stacks. -/
structure SameUpToStacks (p₁ p₂ : Profile) : Prop where
  invocations : p₁.invocations = p₂.invocations
  quality : p₁.quality = p₂.quality
  renamed : ∃ σ : Nat → Nat, Set.InjOn σ {id | id ∈ p₁.stacks.map (·.id)} ∧
    (p₁.stacks.map (Stack.rename σ)).Perm p₂.stacks ∧ (p₁.samples.map (Sample.rename σ)).Perm p₂.samples

/-- The order in which the ring buffer delivers the events does not matter. -/
theorem replay_delivery_order (request : CaptureRequest) (resolver : Resolver) (store : StackStore)
    (now : Nat) (release : String) (eventsDropped samplesDropped : Nat) {l₁ l₂ : List Event}
    (h : l₁.Perm l₂) (t : Nat) :
    let p := startProfile request now release eventsDropped samplesDropped
    SameUpToStacks (replay request resolver store p l₁ t) (replay request resolver store p l₂ t) ∧
      ∀ q, executeQuery (replay request resolver store p l₁ t) q =
        executeQuery (replay request resolver store p l₂ t) q := by
  intro p
  have hperm := translateAll_perm request resolver store h
  have hsk := skeleton_translateAll_perm request resolver store h
  obtain ⟨ks₁, ss₁, h₁⟩ := collected (tagged_translateAll l₁) (framesIn_translateAll l₁).le
    (show p.stacks = [] from rfl) rfl t
  obtain ⟨ks₂, ss₂, h₂⟩ := collected (tagged_translateAll l₂) (framesIn_translateAll l₂).le
    (show p.stacks = [] from rfl) rfl t
  have hsame := SameRecords.of_skeleton hperm hsk
  have hbook := bookOf_eq hsame p t
  obtain ⟨c₁, ht₁⟩ := h₁.table
  obtain ⟨c₂, ht₂⟩ := h₂.table
  rw [replay_eq, replay_eq, h₁.eq, h₂.eq]
  have hres : ({ bookOf p (translateAll request resolver store l₁) t with
        «stacks» := ks₁, samples := ss₁ } : Profile).resolvedSamples.Perm
      ({ bookOf p (translateAll request resolver store l₂) t with
        «stacks» := ks₂, samples := ss₂ } : Profile).resolvedSamples := by
    rw [Profile.resolvedSamples, Profile.resolvedSamples, h₁.resolved, h₂.resolved]
    exact (keptSamples_perm hsame t).map _
  refine ⟨⟨?_, ?_, ht₁.exists_renaming h₁.usedStacks ht₂ h₂.usedStacks hres⟩, ?_⟩
  · simp only [hbook]
  · simp only [hbook]
  · exact executeQuery_congr (by simp only [hbook]) (by simp only [hbook]) ht₁.knownStacks ht₂.knownStacks hres

def workResolver : Resolver := ⟨[(0x1000, "work()"), (0x1100, "read()")], [⟨0x1000, 0x2000, 0x1000⟩]⟩

def twoStacks : StackStore := ⟨Map.ofList [(3, [0x1010]), (4, [0x1110, 0x1010])], by decide⟩

/-- An on-CPU and an off-CPU sample of one call, at the same instant. -/
def sampledCall : List Event :=
  [⟨1, 7, 10, 1, -1, 0, 0⟩, ⟨3, 7, 20, 1, 3, 0, 1001001⟩, ⟨5, 7, 20, 1, 4, 0, 5⟩, ⟨2, 7, 30, 1, -1, 0, 0⟩]

theorem sampledCall_delivery_order :
    let p := startProfile workRequest 0 "6.6" 0 0
    (replay workRequest workResolver twoStacks p sampledCall 40).samples ≠
        (replay workRequest workResolver twoStacks p sampledCall.reverse 40).samples ∧
      SameUpToStacks (replay workRequest workResolver twoStacks p sampledCall 40)
        (replay workRequest workResolver twoStacks p sampledCall.reverse 40) ∧
      ∀ q, executeQuery (replay workRequest workResolver twoStacks p sampledCall 40) q =
        executeQuery (replay workRequest workResolver twoStacks p sampledCall.reverse 40) q :=
  ⟨by decide, replay_delivery_order workRequest workResolver twoStacks 0 "6.6" 0 0
    (List.reverse_perm sampledCall).symm 40⟩

/-! ## Blocked intervals -/

/-- The result counts each off-CPU record of its invocations once. -/
structure QueryResult.CountsBlocked (r : QueryResult) (p : Profile) (q : Query) (events : List Event) : Prop where
  off : r.offCpuNs = r.blockedNs p events
  root : q.metric = .offCpu → r.root.valueNs = r.blockedNs p events

/-- No blocked interval gets lost between the delivered records and a query on the function, whatever its stack. -/
theorem capture_countsBlocked (request : CaptureRequest) (resolver : Resolver) (store : StackStore)
    (names : Map Nat String) (now : Nat) (release : String) (eventsDropped samplesDropped : Nat)
    (events : List Event) (finishNs : Nat) {q : Query} (hf : q.functionId = request.function.id)
    (hm : q.metric = .offCpu ∨ q.metric = .wall) (hlh : q.percentile.low < q.percentile.high)
    (hh : q.percentile.high ≤ 100) (ht : ∀ t, q.time = some t → t.fromNs < t.toNs) :
    let p := capture request resolver store names now release eventsDropped samplesDropped events finishNs
    ∃ r, executeQuery p q = .ok r ∧ (r.blockedNs p events < 2 ^ 64 → r.CountsBlocked p q events) := by
  intro p
  have hk : p.KnownStacks := knownStacks_capture
  obtain ⟨r, hr, -⟩ := executeQuery_ok_of_known hk hlh hh ht
  refine ⟨r, hr, fun hb => ?_⟩
  have hincludes : q.metric.includes .offCpu = true := by rcases hm with h | h <;> rw [h] <;> rfl
  have hw : p.weight q r.selectedInvocationIds.toFinset (fun s => s.state = .offCpu) = r.blockedNs p events :=
    weight_capture hf hincludes hr
  have hg := executeQuery_weighs hk hr
  have hmin : min (r.blockedNs p events) u64Max = r.blockedNs p events := by rw [u64Max_eq]; omega
  constructor
  · rw [hg.off, hw, hmin]
  · intro hoff
    have hq : q.under .offCpu = q := by rw [Query.under, ← hoff]
    have hcpu : p.weight q r.selectedInvocationIds.toFinset (fun s => s.state = .onCpu) = 0 := by
      rw [← hq]; exact weight_of_not_includes .offCpu rfl _
    rw [← FlameNode.valueAt_nil, hg.value, weight_goesThrough_nil, hcpu, hw, Nat.zero_add, hmin]

/-- A call with a sample on the CPU and four blocked intervals: without a stack, with an unknown stack id, without a
frame of the function, and after the return. -/
def blockedCall : List Event :=
  [⟨1, 7, 10, 1, -1, 0, 0⟩, ⟨5, 7, 15, 1, -14, 0, 2⟩, ⟨3, 7, 20, 1, 3, 0, 1001001⟩, ⟨5, 7, 22, 1, 9, 0, 3⟩,
    ⟨5, 7, 28, 1, 5, 0, 4⟩, ⟨2, 7, 30, 1, -1, 0, 0⟩, ⟨5, 7, 35, 1, 4, 0, 5⟩]

def blockedTime : Query := ⟨1, none, none, ⟨0, 100⟩, .offCpu⟩

theorem blockedCall_countsBlocked :
    let p := capture workRequest workResolver twoStacks ∅ 0 "6.6" 0 0 blockedCall 40
    ∃ r, executeQuery p blockedTime = .ok r ∧ r.CountsBlocked p blockedTime blockedCall := by
  obtain ⟨r, hr, h⟩ := capture_countsBlocked workRequest workResolver twoStacks ∅ 0 "6.6" 0 0 blockedCall 40
    (q := blockedTime) rfl (.inl rfl) (by decide) (by decide) (by rintro t ⟨⟩)
  exact ⟨r, hr, h ((sum_filter_le _ _ _).trans_lt (by decide))⟩

/-! ## Symbolization -/

/-- Frames and probes are right on a layout exactly when the page of each segment's file offset resolves to a
segment with the same displacement. -/
theorem symbolizes_iff_offsetResolves (L : Layout) :
    (∀ demangle canonicalize module symbols dynamicSymbols maps, L.Loaded canonicalize module maps →
      ∀ s ∈ L.segments, ∀ a, s.Holds a →
        L.Symbolizes demangle canonicalize module (L.file symbols dynamicSymbols) maps s a) ↔
    ∀ s ∈ L.segments, 0 < s.fileSize → L.OffsetResolves s := by
  constructor
  · intro h s hs hpos
    refine L.offsetResolves_of_frames hs hpos fun x _ => ?_
    exact (h _ some "module" [probeSymbol x] [] L.mapTable L.loaded_mapTable s hs s.address
      ⟨le_refl _, by omega⟩).frames
  · intro h demangle canonicalize module symbols dynamicSymbols maps hl s hs a ha
    exact L.symbolizes hl hs ha (h s hs (by obtain ⟨h₁, h₂⟩ := ha; omega))

/-- Two segments that share a page of the file, as a linker without padding between segments emits them. -/
def packedLayout : Layout where
  segments := [⟨0, 0x5d0, 0x200000⟩, ⟨0x5d0, 0x100, 0x2015d0⟩]
  bias := 0x7f0000000000
  aligned := by decide
  congruent := by decide
  disjoint := by unfold Segment.Apart; decide
  inMemory := by decide
  inFile := by decide

def mainSymbol : ElfSymbol := ⟨true, 0x2015d0, some "main"⟩

/-- The resolver does not find the function at its own first instruction. -/
theorem packedLayout_not_symbolizes :
    packedLayout.Loaded some "module" packedLayout.mapTable ∧
    (⟨0x5d0, 0x100, 0x2015d0⟩ : Segment) ∈ packedLayout.segments ∧
    (⟨0x5d0, 0x100, 0x2015d0⟩ : Segment).Holds 0x2015d0 ∧
    ((Resolver.new (fun _ => none) some "module" (packedLayout.file [mainSymbol] [])
      packedLayout.mapTable).frames [0x7f00002015d0]).map (·.label) = ["[unknown 0x7f00002015d0]"] ∧
    ¬ LabelFor (fun _ => none) (packedLayout.file [mainSymbol] []) 0x2015d0 0x7f00002015d0
      "[unknown 0x7f00002015d0]" := by
  refine ⟨packedLayout.loaded_mapTable, by decide, by unfold Segment.Holds; decide, by decide, ?_⟩
  rintro (⟨s, hs, name, hn, hl, -⟩ | ⟨hnone, -⟩)
  · have he : s = mainSymbol := by simpa [Layout.file, ElfFile.textSymbols, mainSymbol] using hs
    subst he
    cases hn
    revert hl
    decide
  · exact hnone mainSymbol (by decide) rfl (le_refl _)

end SliceProfiler
