import SliceProfiler.Cli.Lemmas.Session
import SliceProfiler.Cli.Lemmas.Validate
import SliceProfiler.Cli.Lemmas.View
import SliceProfiler.Cli.Theorems
import SliceProfiler.Kernel.Pipeline

/-!
# What the other commands make of a saved capture
-/

namespace SliceProfiler.Cli

open Lib

/-- The query of `view` without options. -/
def defaultQuery (functionId : Nat) (metric : Metric) : Query := ⟨functionId, none, none, ⟨0, 100⟩, metric⟩

/-- The file holds a capture of the function. `validate` accepts it with `--require-complete`, and its report counts the
samples; `discover` and `view` succeed; and the query behind `view` finds the calls that `profile` counted. -/
structure Accepted (l : FileLayers) (bytes : List UInt8) (functionId : Nat) (p : Profile) : Prop where
  validate : ∀ a : ValidateArgs, (∃ report, validate l bytes a = .ok report) ↔
    (a.requireSamples = true → p.samples ≠ []) ∧ (a.requireOffCpu = true → ∃ s ∈ p.samples, s.state = .offCpu)
  counts : ∀ a report, Cli.validate l bytes a = .ok report → report.CountsOf p
  discover : ∀ metric, ∃ d, discover p metric = .ok d
  view : ∀ b path metric, view b l bytes { path, metric } =
    .ok (Viewer.initialState p (defaultQuery functionId metric))
  population : ∀ metric, ∃ r, executeQuery p (defaultQuery functionId metric) = .ok r ∧
    r.availableInvocationCount = completeInvocations p

variable {l : FileLayers} {bytes : List UInt8} {p : Profile} {a : ValidateArgs}

theorem exists_complete (h : completeInvocations p ≠ 0) : ∃ i ∈ p.invocations, i.complete = true ∧ i.valid = true := by
  have hne : p.invocations.filter (fun i => i.complete && i.valid) ≠ [] := fun he => h (congrArg List.length he)
  obtain ⟨i, hi⟩ := List.exists_mem_of_ne_nil _ hne
  obtain ⟨hi, hv⟩ := List.mem_filter.mp hi
  exact ⟨i, hi, Bool.and_eq_true_iff.mp hv⟩

theorem view_default {f : Function} (hread : Profile.fromBytes l bytes = .ok p) (hf : p.functions.head? = some f)
    (b : Build) (path : String) (metric : Metric) :
    view b l bytes { path, metric } = .ok (Viewer.initialState p (defaultQuery f.id metric)) := by
  have hrange : parsePercentile "0:100" = .ok ⟨0, 100⟩ := by decide
  have hquery : viewQuery b p { path, metric } = .ok (defaultQuery f.id metric) := by
    simp only [viewQuery, hf, require_some, transpose, hrange, ok_bind]
    rfl
  rw [view_eq hread, hquery]

theorem population_default {functionId : Nat} (hf : ∀ i ∈ p.invocations, i.functionId = functionId) (metric : Metric) :
    (candidates p (defaultQuery functionId metric)).length = completeInvocations p := by
  rw [length_candidates, completeInvocations, ← List.countP_eq_length_filter]
  refine List.countP_congr fun i hi => ?_
  rw [decide_eq_true_eq, Bool.and_eq_true]
  constructor
  · intro h
    exact ⟨h.complete, h.valid⟩
  · rintro ⟨hc, hv⟩
    exact ⟨hf i hi, hc, hv, by rintro threads ⟨⟩, by rintro t ⟨⟩⟩

/-- A file with a complete and valid call of its one function is accepted. -/
theorem accepted_of_complete {f : Function} (hread : Profile.fromBytes l bytes = .ok p)
    (hfunctions : p.functions.head? = some f) (hf : ∀ i ∈ p.invocations, i.functionId = f.id)
    (hcomplete : completeInvocations p ≠ 0) : Accepted l bytes f.id p := by
  obtain ⟨-, -, -, hv⟩ := of_fromBytes hread
  constructor
  · intro a
    rw [validate_eq_ok hread hv]
    constructor
    · intro h
      exact ⟨h.samples, h.offCpu⟩
    · rintro ⟨hs, ho⟩
      exact ⟨fun _ => exists_complete hcomplete, hs, ho⟩
  · intro a report h
    exact counts_validate hread h
  · intro metric
    rw [discover, hv]
    exact ⟨_, rfl⟩
  · intro b path metric
    exact view_default hread hfunctions b path metric
  · intro metric
    obtain ⟨r, hr, -, havailable, -⟩ :=
      executeQuery_ok (q := defaultQuery f.id metric) (Profile.WellFormed.of_validate hv)
      (by exact Nat.zero_lt_succ _) le_rfl (by rintro t ⟨⟩)
    exact ⟨r, hr, havailable.trans (population_default hf metric)⟩

/-! ## From the kernel and the session to the other commands -/

section Saved

variable (request : SliceProfiler.CaptureRequest) (resolver : Resolver) (names : Map Nat String)
  {now : Nat} (release : String)
  {finishNs : Nat} {deliveries : List Delivery} {traces : StackTraces} {delivered : List SliceProfiler.Event}
  {demangle : String → Option String} {read : String → Except Messages ElfFile} {args : ProfileArgs}
  {s s' : Session} {events : List Event}

/-- What a session saves of a run of the kernel programs is written to a file that the other commands accept, whatever
records got lost and whatever the calls of the session gave. -/
theorem saved_accepted {config : SliceConfig} {actions : List KernelAction} {m : Machine} (l : FileLayers)
    (h : run (Machine.step config) {} actions = some m) (hlen : actions.length < 2 ^ 62)
    (ha : ∀ a ∈ actions, a.Fits) (hperiod : config.samplePeriodNs ≤ u64Max)
    (hf : functionCodec.fits request.function = true) (hd : delivered.Perm m.kernel.events)
    (hr : List.Forall₂ traces.Delivers delivered deliveries) (hnow : now ≤ u64Max) (hfinish : finishNs ≤ u64Max)
    (hstart : Session.start demangle read args = .ok s) (hsession : run Session.step s events = some s') :
    let r := Ring.drain deliveries
    let p := capture request resolver r.stackStore names now release m.kernel.droppedEvents m.kernel.droppedSamples
      r.events finishNs
    l.Lossless (profileCodec.encode p) → p ∈ trace Session.step Session.saves s events →
      ∃ bytes, p.toBytes l = .ok bytes ∧ Accepted l bytes request.function.id p := by
  intro r p hl hsaved
  have hinv : s'.Saved (trace Session.step Session.saves s events) :=
    run_trace (fun saved t => t.Saved saved) (fun _ _ _ _ hs => saved_step hs) (saved_start hstart) hsession
  obtain ⟨bytes, hbytes, hread, -⟩ := file_of_run request resolver names release l h hlen ha hperiod hf hd hr hnow
    hfinish hl
  have hfunctions : p.functions.head? = some request.function := congrArg List.head? functions_capture
  exact ⟨bytes, hbytes, accepted_of_complete hread hfunctions (fun i hi => functionId_capture hi)
    (hinv.complete p hsaved)⟩

/-- The session of `savesCapture` with the capture of `oneCall`. -/
def savesOneCall : List Event :=
  savesCapture.take 15 ++ [.answer (.collected oneCallProfile), .answer (.done (.ok ())), .answer (.done (.ok ()))]

theorem trace_savesOneCall : ∃ s', run Session.step launchedSession savesOneCall = some s' ∧
    trace Session.step Session.saves launchedSession savesOneCall = [oneCallProfile] := by
  exact ⟨_, rfl, rfl⟩

theorem savesOneCall_accepted : run (Machine.step workConfig) {} oneCall = some oneCallEnd ∧
    oneCallProfile ∈ trace Session.step Session.saves launchedSession savesOneCall ∧
    ∃ bytes, oneCallProfile.toBytes oneCallLayers = .ok bytes ∧ Accepted oneCallLayers bytes 1 oneCallProfile := by
  obtain ⟨s', hsession, htrace⟩ := trace_savesOneCall
  have hsaved : oneCallProfile ∈ trace Session.step Session.saves launchedSession savesOneCall := by
    rw [htrace]
    exact List.mem_singleton_self _
  exact ⟨(Option.some_get _).symm, hsaved,
    saved_accepted workRequest workResolver ∅ "6.6" oneCallLayers (Option.some_get _).symm (by decide) (by decide)
      (by decide) (by decide) (List.reverse_perm _) (delivers_pmap _ oneCallEnd_fits) (by decide) (by decide)
      start_launchArgs hsession (recordedLayers_lossless _ _ _) hsaved⟩

end Saved

end SliceProfiler.Cli
