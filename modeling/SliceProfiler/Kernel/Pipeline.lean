import SliceProfiler.Core.Lemmas.Format
import SliceProfiler.Core.Theorems
import SliceProfiler.Kernel.Lemmas.Fits
import SliceProfiler.Kernel.Lemmas.Population
import SliceProfiler.Kernel.Theorems
import SliceProfiler.Viewer.Theorems

/-!
# From the kernel to the report

The records go through the ring buffer as bytes, the profile that the replay builds from them goes to a file, and the
report is rendered from what is read back.
-/

namespace SliceProfiler

open Lib

section Capture

variable (request : CaptureRequest) (resolver : Resolver) (names : Map Nat String) {now : Nat} (release : String)
  {eventsDropped samplesDropped finishNs : Nat} {deliveries : List Delivery}

/-! ## Any records -/

/-- Whatever the ring buffer delivers, every number of the profile fits the type of its field. -/
theorem capture_drain_fits (hf : functionCodec.fits request.function = true) (hlen : deliveries.length < 2 ^ 63)
    (hnow : now ≤ u64Max) (hevents : eventsDropped ≤ u64Max) (hsamples : samplesDropped ≤ u64Max)
    (hfinish : finishNs ≤ u64Max) :
    (capture request resolver (Ring.drain deliveries).stackStore names now release eventsDropped samplesDropped
      (Ring.drain deliveries).events finishNs).Fits := by
  have hr := drain_fits deliveries
  have hle := length_events_drain_le deliveries
  refine capture_fits hf hr.stackStore hr.events ?_ hnow hevents hsamples hfinish names release
  rw [u64Max_eq]
  omega

/-- A record that is cut off, a record of an unknown kind, and a sample whose stack ends in half an address. -/
def strayBytes : List Delivery :=
  [⟨[1, 2, 3], none, by decide⟩, ⟨List.replicate 40 255, none, by decide⟩,
    ⟨(⟨3, 7, 20, 2, 5, 0, 1001001⟩ : Event).toBytes, some [16, 16, 0, 0, 0, 0, 0, 0, 16, 16],
      fun _ => by rw [readEvent_toBytes (by decide)]; decide⟩]

theorem capture_strayBytes_fits : (capture workRequest workResolver (Ring.drain strayBytes).stackStore ∅ 0 "6.6" 0 0
    (Ring.drain strayBytes).events 40).Fits :=
  capture_drain_fits workRequest workResolver ∅ "6.6" (by decide) (by decide) (by decide) (by decide) (by decide)
    (by decide)

/-! ## The records of the kernel -/

variable {traces : StackTraces} {delivered : List Event}

/-- A record and its bytes determine each other, and the profile of the delivered bytes is that of the records and of
the stacks in the kernel. -/
theorem capture_drain (h : List.Forall₂ traces.Delivers delivered deliveries) (he : ∀ e ∈ delivered, e.Fits) :
    (∀ e ∈ delivered, e.toBytes.length = eventSize ∧ readEvent e.toBytes = e) ∧
    (∀ bytes, bytes.length = eventSize → (readEvent bytes).Fits ∧ (readEvent bytes).toBytes = bytes) ∧
    capture request resolver (Ring.drain deliveries).stackStore names now release eventsDropped samplesDropped
        (Ring.drain deliveries).events finishNs =
      capture request resolver traces.toStackStore names now release eventsDropped samplesDropped delivered
        finishNs := by
  obtain ⟨hevents, hget⟩ := drain_delivers h he
  refine ⟨fun e hm => ⟨length_eventBytes e, readEvent_toBytes (he e hm)⟩,
    fun bytes hb => ⟨readEvent_fits bytes, toBytes_readEvent hb⟩, ?_⟩
  rw [hevents]
  exact capture_congr request resolver hget names now release eventsDropped samplesDropped finishNs

/-- The record of a call, delivered behind the record of its sample. -/
def sampledBytes : List Event := [⟨3, 7, 20, 2, 4, 0, 1001001⟩, ⟨1, 7, 10, 2, -1, 0, 0⟩, ⟨2, 7, 30, 2, -1, 0, 0⟩]

def twoTraces : StackTraces where
  toStackStore := twoStacks
  traces := by
    intro stackId trace h
    have hall : ∀ x ∈ twoStacks.addresses.entries,
        x.2.length ≤ 127 ∧ ∀ address ∈ x.2, address ≠ 0 ∧ address ≤ u64Max := by
      decide
    exact hall ⟨stackId, trace⟩ (List.of_mem_dlookup h)

theorem capture_sampledBytes :
    (∀ e ∈ sampledBytes, e.toBytes.length = eventSize ∧ readEvent e.toBytes = e) ∧
    (∀ bytes, bytes.length = eventSize → (readEvent bytes).Fits ∧ (readEvent bytes).toBytes = bytes) ∧
    let r := Ring.drain (sampledBytes.pmap twoTraces.deliver (by decide))
    capture workRequest workResolver r.stackStore ∅ 0 "6.6" 0 0 r.events 40 =
      capture workRequest workResolver twoTraces.toStackStore ∅ 0 "6.6" 0 0 sampledBytes 40 :=
  capture_drain workRequest workResolver ∅ "6.6" (delivers_pmap _ _) (by decide)

/-! ## From a run to the report -/

/-- What is captured of any run is written, and read back as it was. -/
theorem file_of_run {config : SliceConfig} {actions : List KernelAction} {m : Machine} (l : FileLayers)
    (h : run (Machine.step config) {} actions = some m) (hlen : actions.length < 2 ^ 62)
    (ha : ∀ a ∈ actions, a.Fits) (hperiod : config.samplePeriodNs ≤ u64Max)
    (hf : functionCodec.fits request.function = true) (hd : delivered.Perm m.kernel.events)
    (hr : List.Forall₂ traces.Delivers delivered deliveries) (hnow : now ≤ u64Max) (hfinish : finishNs ≤ u64Max) :
    let r := Ring.drain deliveries
    let p := capture request resolver r.stackStore names now release m.kernel.droppedEvents m.kernel.droppedSamples
      r.events finishNs
    l.Lossless (profileCodec.encode p) →
    ∃ bytes, p.toBytes l = .ok bytes ∧ Profile.fromBytes l bytes = .ok p ∧ p.validate = .ok () := by
  intro r p
  rintro ⟨text, payload, htext, hread, hpayload, hraw⟩
  have hprogress := Machine.progress_of_run h
  unfold Kernel.progress at hprogress
  have hkernel : m.kernel.Fits := Machine.fits_of_run hperiod ha h (by rw [u64Max_eq]; omega)
  have hevents : r.events = delivered := (drain_delivers hr fun e he => hkernel.events e (hd.mem_iff.mp he)).1
  have hperm : r.events.Perm m.kernel.events := hevents ▸ hd
  have hcount : r.events.length ≤ m.kernel.events.length := hperm.length_eq.le
  have hring : r.Fits := drain_fits deliveries
  have hfits : p.Fits := by
    refine capture_fits hf hring.stackStore hring.events ?_ hnow ?_ ?_ hfinish _ _
    · rw [u64Max_eq]; omega
    · rw [u64Max_eq]; omega
    · rw [u64Max_eq]; omega
  obtain ⟨own, ho⟩ := Machine.owned_of_run h
  have hv : p.validate = .ok () := by
    refine capture_validate ?_ (orderedBoundaries_of_owned ho hperm) (samplesOnThread_of_owned ho hperm)
    rw [u64Max_eq]
    omega
  exact ⟨_, toBytes_of_layers htext hpayload, fromBytes_of_valid hfits hv hraw hread, hv⟩

/-- After any run of the kernel programs, whatever records got lost and in whatever order the others arrive, the
profile is written, read back as it was, and valid, and every well-formed query on it is answered and rendered. -/
theorem report_of_run {config : SliceConfig} {actions : List KernelAction} {m : Machine} (l : FileLayers)
    (h : run (Machine.step config) {} actions = some m) (hlen : actions.length < 2 ^ 62)
    (ha : ∀ a ∈ actions, a.Fits) (hperiod : config.samplePeriodNs ≤ u64Max)
    (hf : functionCodec.fits request.function = true) (hd : delivered.Perm m.kernel.events)
    (hr : List.Forall₂ traces.Delivers delivered deliveries) (hnow : now ≤ u64Max) (hfinish : finishNs ≤ u64Max) :
    let r := Ring.drain deliveries
    let p := capture request resolver r.stackStore names now release m.kernel.droppedEvents m.kernel.droppedSamples
      r.events finishNs
    l.Lossless (profileCodec.encode p) →
    ∃ bytes, p.toBytes l = .ok bytes ∧ Profile.fromBytes l bytes = .ok p ∧ p.validate = .ok () ∧
      ∀ q : Query, q.percentile.low < q.percentile.high → q.percentile.high ≤ 100 →
        (∀ t, q.time = some t → t.fromNs < t.toNs) →
        (∃ result, executeQuery p q = .ok result) ∧ Viewer.renderHtml p q = .ok (Viewer.initialState p q) := by
  intro r p hl
  obtain ⟨bytes, hbytes, hread, hv⟩ := file_of_run request resolver names release l h hlen ha hperiod hf hd hr hnow
    hfinish hl
  refine ⟨bytes, hbytes, hread, hv, fun q hlh hh ht => ?_⟩
  have hquery : ∃ result, executeQuery p q = .ok result :=
    (executeQuery_ok_of_known knownStacks_capture hlh hh ht).imp fun _ h => h.1
  exact ⟨hquery, Viewer.renderHtml_eq_ok.mpr ⟨hv, hquery, rfl⟩⟩

end Capture

/-- A call with a sample on the CPU. -/
def oneCall : List KernelAction :=
  [.entry ⟨⟨7, 10, 0, true⟩, true⟩, .sample ⟨⟨7, 20, 1, true⟩, 4⟩, .ret ⟨7, 30, 1, true⟩, .retDeletes 7]

def oneCallEnd : Machine := (run (Machine.step workConfig) {} oneCall).get (by decide)

theorem oneCallEnd_fits : ∀ e ∈ oneCallEnd.kernel.events.reverse, e.Fits := by decide

def oneCallRing : Ring := Ring.drain (oneCallEnd.kernel.events.reverse.pmap twoTraces.deliver oneCallEnd_fits)

def oneCallProfile : Profile :=
  capture workRequest workResolver oneCallRing.stackStore ∅ 0 "6.6" oneCallEnd.kernel.droppedEvents
    oneCallEnd.kernel.droppedSamples oneCallRing.events 40

/-- The text of the profile of `oneCall`. -/
def oneCallText : List UInt8 := String.toUTF8 (
    r#"{"format_version":1,"metadata":{"captured_at_unix_ns":0,"command":["target"],"kernel_release":"6.6","# ++
    r#""sample_period_ns":1001001},"functions":[{"id":1,"module":"target","module_build_id":null,"# ++
    r#""address":4096,"name":"_Z4workv","demangled_name":"work()","source_file":null,"line":null}],"# ++
    r#""threads":[{"tid":7,"name":null}],"invocations":[{"id":2,"function_id":1,"parent_id":null,"tid":7,"# ++
    r#""start_ns":10,"end_ns":30,"complete":true,"valid":true}],"stacks":[{"id":1,"# ++
    r#""frames":[{"function_id":null,"label":"work()","module":"target","address":4112},"# ++
    r#"{"function_id":null,"label":"read()","module":"target","address":4368}]}],"# ++
    r#""samples":[{"timestamp_ns":20,"invocation_id":2,"stack_id":1,"tid":7,"cpu":1,"state":"on_cpu","# ++
    r#""weight_ns":1001001}],"quality":{"events_generated":2,"events_dropped":0,"samples_generated":1,"# ++
    r#""samples_dropped":0,"complete_invocations":1,"incomplete_invocations":0,"stack_mismatches":0,"# ++
    r#""suspected_async_violations":0}}"#) |>.toList

/-- The text as `zstd` compresses it. -/
def oneCallPayload : List UInt8 :=
  [40, 181, 47, 253, 0, 96, 189, 13, 0, 70, 219, 76, 32, 64, 107, 170, 3, 56, 23, 98, 85, 211, 117, 131, 55,
    34, 164, 141, 172, 83, 31, 195, 240, 187, 53, 43, 22, 159, 22, 90, 216, 12, 195, 0, 64, 64, 0, 70, 0, 68, 0,
    16, 157, 193, 166, 210, 198, 8, 1, 132, 143, 47, 245, 236, 17, 177, 187, 120, 134, 141, 226, 189, 34, 234,
    58, 225, 88, 57, 109, 237, 37, 27, 228, 88, 58, 196, 176, 220, 68, 171, 72, 61, 206, 133, 154, 252, 56, 214,
    85, 165, 251, 102, 147, 28, 187, 183, 100, 124, 3, 173, 182, 248, 18, 126, 4, 79, 218, 56, 0, 128, 17, 159,
    3, 169, 51, 133, 211, 118, 101, 227, 6, 35, 62, 7, 1, 2, 242, 241, 155, 58, 27, 196, 1, 66, 112, 44, 229,
    163, 82, 106, 195, 216, 116, 199, 106, 33, 197, 214, 84, 64, 199, 103, 83, 61, 181, 252, 72, 56, 150, 238,
    173, 77, 110, 38, 108, 150, 4, 65, 18, 4, 73, 212, 91, 241, 1, 8, 57, 192, 166, 43, 223, 148, 69, 89, 12,
    16, 3, 74, 31, 205, 114, 72, 18, 118, 5, 125, 211, 152, 96, 36, 101, 81, 139, 105, 195, 230, 51, 238, 241,
    247, 12, 14, 184, 219, 108, 212, 149, 235, 30, 21, 162, 131, 166, 215, 112, 171, 224, 88, 173, 85, 250, 184,
    88, 27, 101, 113, 139, 157, 173, 4, 122, 138, 51, 203, 130, 28, 75, 247, 214, 42, 123, 171, 129, 146, 107,
    144, 138, 212, 55, 29, 202, 249, 69, 90, 109, 114, 53, 196, 45, 155, 4, 37, 234, 16, 190, 168, 190, 26, 239,
    174, 64, 114, 221, 27, 247, 227, 184, 97, 23, 211, 185, 96, 163, 236, 66, 177, 238, 176, 241, 132, 9, 185,
    231, 227, 175, 174, 156, 48, 5, 51, 40, 32, 66, 194, 80, 33, 31, 17, 132, 36, 139, 6, 37, 102, 74, 165, 173,
    57, 216, 195, 210, 190, 222, 215, 1, 194, 160, 241, 214, 138, 200, 161, 99, 57, 84, 63, 160, 166, 12, 85,
    208, 185, 116, 177, 76, 109, 116, 92, 10, 63, 37, 128, 3, 132, 236, 123, 100, 112, 91, 109, 233, 131, 0, 41,
    55, 168, 136, 162, 106, 19, 101, 144, 65, 0, 128, 16, 151, 130, 160, 5, 229, 235, 26, 12, 115, 24, 3, 17,
    194, 138, 248, 40, 100, 162, 52, 250, 14, 57, 80, 209, 212, 89, 125, 88, 240, 65, 249, 139, 188, 112, 3,
    233, 63, 67, 196, 48, 126, 133, 234, 193, 83, 70, 2, 53, 100, 226, 90, 81]
def oneCallLayers : FileLayers := recordedLayers (profileCodec.encode oneCallProfile) oneCallText oneCallPayload

theorem oneCall_report : run (Machine.step workConfig) {} oneCall = some oneCallEnd ∧
    ∃ bytes, oneCallProfile.toBytes oneCallLayers = .ok bytes ∧
      Profile.fromBytes oneCallLayers bytes = .ok oneCallProfile ∧ oneCallProfile.validate = .ok () ∧
      ∀ q : Query, q.percentile.low < q.percentile.high → q.percentile.high ≤ 100 →
        (∀ t, q.time = some t → t.fromNs < t.toNs) →
        (∃ result, executeQuery oneCallProfile q = .ok result) ∧
          Viewer.renderHtml oneCallProfile q = .ok (Viewer.initialState oneCallProfile q) :=
  ⟨(Option.some_get _).symm,
    report_of_run workRequest workResolver ∅ "6.6" oneCallLayers (Option.some_get _).symm (by decide) (by decide)
      (by decide) (by decide) (List.reverse_perm _) (delivers_pmap _ oneCallEnd_fits) (by decide) (by decide)
      (recordedLayers_lossless _ _ _)⟩

/-! ## From calls to latencies -/

section Latencies

variable {config : SliceConfig} {probes : List Probe} {w : World} {delivered : List Event}

/-- Without losses every query on the capture measures the leaf calls that pass its filters, and so does the page. When
the calls do not nest, these are the calls that returned. -/
theorem latencies_of_run (request : CaptureRequest) (resolver : Resolver) (store : StackStore) (names : Map Nat String)
    (now : Nat) (release : String) (finishNs : Nat) (h : run (World.step config) {} probes = some w)
    (hres : ∀ p ∈ probes, p.context.reserved = true) (hd : delivered.Perm w.kernel.events)
    (hlen : delivered.length ≤ u64Max) :
    let p := capture request resolver store names now release w.kernel.droppedEvents w.kernel.droppedSamples
      delivered finishNs
    p.validate = .ok () ∧
    (∀ q : Query, q.functionId = request.function.id → q.percentile.low < q.percentile.high →
      q.percentile.high ≤ 100 → (∀ t, q.time = some t → t.fromNs < t.toNs) →
      (∃ r, executeQuery p q = .ok r ∧ r.Measures (w.latencies q) q.percentile) ∧
      Viewer.renderHtml p q = .ok (Viewer.initialState p q) ∧
      (Viewer.initialState p q).durations p = w.latencies (Viewer.shownQuery p q)) ∧
    (Along (World.step config) World.CallsApart {} probes → w.leaves = w.returned) := by
  intro p
  obtain ⟨own, hl, -⟩ := World.recorded_of_run h hres
  have hv : p.validate = .ok () := capture_validate hlen (orderedBoundaries_of_owned hl.tracked.owned hd)
    (samplesOnThread_of_owned hl.tracked.owned hd)
  have hw := Profile.WellFormed.of_validate hv
  have hdurations : ∀ q : Query, q.functionId = request.function.id →
      (candidates p q).map (·.durationNs) = w.latencies q := fun q hf => durations_capture h hres hd hf
  refine ⟨hv, fun q hf hlh hh ht => ?_, World.leaves_of_apart h⟩
  obtain ⟨r, hr, -⟩ := executeQuery_ok hw hlh hh ht
  refine ⟨⟨r, hr, ?_⟩, Viewer.renderHtml_eq_ok.mpr ⟨hv, ⟨r, hr⟩, rfl⟩, ?_⟩
  · rw [← hdurations q hf]
    exact executeQuery_measures hr
  · have hend : ∀ i ∈ candidates p (Viewer.shownQuery p q), i.startNs ≠ (Viewer.bounds p).toNs := by
      intro i hi
      obtain ⟨hi, hq⟩ := mem_candidates.mp hi
      have hlt := startNs_lt_capture h hres hd hi hq.valid
      exact (hlt.trans_le (Viewer.endNs_mem_bounds hi).2).ne
    rw [Viewer.State.durations, Viewer.eligible_initialState hw hend]
    exact hdurations _ hf

/-- Two calls on one thread and one on another, which returns in between. -/
def threeReturns : List Probe :=
  [.call ⟨⟨7, 10, 0, true⟩, true⟩, .ret ⟨7, 30, 0, true⟩, .call ⟨⟨7, 40, 0, true⟩, true⟩,
    .call ⟨⟨8, 42, 1, true⟩, true⟩, .ret ⟨8, 52, 1, true⟩, .ret ⟨7, 80, 0, true⟩]

def threeReturnsEnd : World := (run (World.step workConfig) {} threeReturns).get (by decide)

def allCalls : Query := ⟨1, none, none, ⟨0, 100⟩, .wall⟩

theorem threeReturns_latencies : threeReturnsEnd.latencies allCalls = [10, 20, 40] ∧
    ∃ r, executeQuery (capture workRequest workResolver twoStacks ∅ 0 "6.6" threeReturnsEnd.kernel.droppedEvents
        threeReturnsEnd.kernel.droppedSamples threeReturnsEnd.kernel.events.reverse 90) allCalls = .ok r ∧
      r.Measures (threeReturnsEnd.latencies allCalls) ⟨0, 100⟩ := by
  have hrun : run (World.step workConfig) {} threeReturns = some threeReturnsEnd := (Option.some_get _).symm
  obtain ⟨-, hqueries, -⟩ := latencies_of_run workRequest workResolver twoStacks ∅ 0 "6.6" 90 hrun (by decide)
    (List.reverse_perm _) (by decide)
  exact ⟨by decide, (hqueries allCalls rfl (by decide) (by decide) (by rintro t ⟨⟩)).1⟩

end Latencies

end SliceProfiler
