import SliceProfiler.Cli.Lemmas.Discover
import SliceProfiler.Cli.Lemmas.Profile
import SliceProfiler.Cli.Lemmas.Range
import SliceProfiler.Cli.Lemmas.Session
import SliceProfiler.Cli.Lemmas.Symbols
import SliceProfiler.Cli.Lemmas.View
import SliceProfiler.Cli.Output
import SliceProfiler.Core.Theorems
import SliceProfiler.Viewer.Theorems

/-!
# Theorems on the command line

The times of the discovery are inclusive times as long as no stack repeats a label. A range of time is exact as long
as its two times fit. A failed launch leaves no orphan as long as the identity of the child is resolved and the errors
that send no kill come to a child that has ended or has been interrupted.
-/

namespace SliceProfiler

open Lib

variable {p : Profile}

/-! ## Discovery -/

/-- The accumulated times are the inclusive times, the printed ones are among them, none exceeds the time of the
included states, and no addition wraps around. -/
structure DiscoversInclusiveTimes (p : Profile) (metric : Metric) : Prop where
  exact : ∀ label, p.inclusiveTime metric label = p.trueInclusiveTime metric label
  printed : ∀ d, discover p metric = .ok d → ∀ e ∈ d.functions, e.2 = p.trueInclusiveTime metric e.1
  bounded : ∀ label, p.inclusiveTime metric label ≤ p.sampleSummary.under metric
  fits : Fits u64Max (p.additions metric)

/-- The times are inclusive times exactly when no included sample with a weight has a label twice in its stack. -/
theorem discoversInclusiveTimes_iff (hv : p.validate = .ok ()) (hw : (p.samples.map (·.weightNs)).sum < 2 ^ 64)
    (metric : Metric) : DiscoversInclusiveTimes p metric ↔
      ∀ s ∈ p.samples, metric.includes s.state = true → 0 < s.weightNs →
        ∀ k ∈ p.stacks, k.id = s.stackId → (k.frames.map (·.label)).Nodup := by
  have hwell : p.WellFormed := .of_validate hv
  have hfit : (p.samples.map (·.weightNs)).sum ≤ u64Max := by rw [u64Max_eq]; omega
  have hlabels : ∀ s ∈ p.samples, (∀ k ∈ p.stacks, k.id = s.stackId → (k.frames.map (·.label)).Nodup) ↔
      (p.labelsOf s).Nodup := by
    intro s hs
    obtain ⟨k, hk, hid⟩ := (hwell.samples s hs).stack
    rw [labelsOf_eq hwell.stackIds hk hid]
    refine ⟨fun h => h k hk hid, fun h k' hk' hid' => ?_⟩
    rwa [List.inj_on_of_nodup_map hwell.stackIds hk' hk (hid'.trans hid.symm)]
  have hstack : (∀ s ∈ p.samples, metric.includes s.state = true → 0 < s.weightNs →
      ∀ k ∈ p.stacks, k.id = s.stackId → (k.frames.map (·.label)).Nodup) ↔
      ∀ label, totalAt label (p.additions metric) = p.trueInclusiveTime metric label := by
    rw [totalAt_additions_iff hwell.stackIds]
    exact forall₂_congr fun s hs => imp_congr_right fun _ => imp_congr_right fun _ => hlabels s hs
  rw [hstack]
  constructor
  · intro h label
    rw [← h.fits.tallied_eq, ← inclusiveTime_eq, h.exact]
  · intro h
    have hle : ∀ label, p.trueInclusiveTime metric label ≤ p.sampleSummary.under metric := fun label =>
      (trueInclusiveTime_le p metric label).trans_eq (under_sampleSummary hfit metric).symm
    have hfits : Fits u64Max (p.additions metric) := by
      refine fits_iff.mpr fun label => ?_
      rw [h label]
      exact (trueInclusiveTime_le p metric label).trans ((sum_filter_le ..).trans hfit)
    have hexact : ∀ label, p.inclusiveTime metric label = p.trueInclusiveTime metric label := fun label => by
      rw [inclusiveTime_eq, hfits.tallied_eq, h label]
    exact ⟨hexact, fun d hd e he => (discover_functions hd e he).trans (hexact e.1),
      fun label => (hexact label).trans_le (hle label), hfits⟩

theorem fourCalls_discoversInclusiveTimes : DiscoversInclusiveTimes fourCalls .wall :=
  (discoversInclusiveTimes_iff (by decide) (by decide) .wall).mpr (by decide)

/-- Calls whose stack holds a recursive function twice. -/
def recursiveCalls (weightNs : Nat) : Profile :=
  { fourCalls with
    «stacks» := [⟨1, [⟨some 1, "work()", none, none⟩, ⟨some 1, "work()", none, none⟩]⟩]
    samples := [⟨10, 1, 1, 7, 0, .onCpu, weightNs⟩] }

/-- The time of a recursive function counts twice, and a large one wraps around. -/
theorem recursiveCalls_not_discoversInclusiveTimes :
    ((recursiveCalls 5).validate = .ok () ∧ ((recursiveCalls 5).samples.map (·.weightNs)).sum < 2 ^ 64 ∧
      (recursiveCalls 5).inclusiveTime .wall "work()" = 10 ∧ (recursiveCalls 5).trueInclusiveTime .wall "work()" = 5 ∧
      ¬ DiscoversInclusiveTimes (recursiveCalls 5) .wall) ∧
    (recursiveCalls (2 ^ 63)).validate = .ok () ∧ ((recursiveCalls (2 ^ 63)).samples.map (·.weightNs)).sum < 2 ^ 64 ∧
      (recursiveCalls (2 ^ 63)).inclusiveTime .wall "work()" = 0 ∧
        ¬ DiscoversInclusiveTimes (recursiveCalls (2 ^ 63)) .wall := by
  refine ⟨⟨by decide, by decide, by decide, by decide, fun h => ?_⟩, by decide, by decide, by decide, fun h => ?_⟩
  · exact absurd (h.exact "work()") (by decide)
  · exact absurd (h.exact "work()") (by decide)

/-! ## Ranges of time -/

/-- A result is the range that the text says, and no operation wraps around: a build with overflow checks does not
panic. -/
structure ParsesExactly (text : String) (bounds : Option TimeRange) : Prop where
  exact : ∀ r, parseTime .release text bounds = .ok r → ∃ range low high n unit n' unit', bounds = some range ∧
    text.toList = low ++ ':' :: high ∧ Duration low n unit ∧ Duration high n' unit' ∧
    r.fromNs = range.fromNs + n * unit ∧ r.toNs = range.fromNs + n' * unit' ∧ r.toNs < 2 ^ 64 ∧ r.fromNs < r.toNs
  fits : parseTime .debug text bounds ≠ .error .panic

/-- The lower time fits when the text in front of the colon is a duration, and then also the upper one. -/
def TimesFit (text : String) (bounds : Option TimeRange) : Prop :=
  ∀ range low high n unit, bounds = some range → splitOnce ':' text.toList = some (low, high) → Duration low n unit →
    range.fromNs + n * unit ≤ u64Max ∧ ∀ n' unit', Duration high n' unit' → range.fromNs + n' * unit' ≤ u64Max

/-- A text that is an error in both builds. -/
theorem parsesExactly_of_error {text : String} {bounds : Option TimeRange}
    (h : ∀ b, ∃ message, parseTime b text bounds = .error (.error message)) : ParsesExactly text bounds := by
  obtain ⟨m, hm⟩ := h .release
  obtain ⟨m', hm'⟩ := h .debug
  constructor
  · intro r hr
    rw [hm] at hr
    cases hr
  · rw [hm']
    intro hc
    cases hc

theorem parsesExactly_of_durations {text : String} {range : TimeRange} {low high : List Char} {n unit n' unit' : Nat}
    (hs : splitOnce ':' text.toList = some (low, high)) (hn : Duration low n unit)
    (hfrom : range.fromNs + n * unit ≤ u64Max) (hn' : Duration high n' unit')
    (hto : range.fromNs + n' * unit' ≤ u64Max) :
    ParsesExactly text (some range) := by
  have heq := parseTime_of_durations hs hn hfrom hn' hto
  constructor
  · intro r hr
    rw [heq, bind_eq_ok] at hr
    obtain ⟨u, hlt, hr⟩ := hr
    obtain rfl := Except.ok.inj hr
    refine ⟨range, low, high, n, unit, n', unit', rfl, (splitOnce_eq_some.mp hs).1, hn, hn', rfl, rfl, ?_, ?_⟩
    · exact Nat.lt_of_le_of_lt hto (by rw [u64Max_eq]; omega)
    · exact not_le.mp (ensure_eq_ok.mp hlt)
  · rw [heq, ensure]
    split <;> (intro hc; cases hc)

theorem parsesExactly_of_fits {text : String} {bounds : Option TimeRange} (h : TimesFit text bounds) :
    ParsesExactly text bounds := by
  cases bounds with
  | none => exact parsesExactly_of_error fun b => ⟨_, rfl⟩
  | some range =>
      cases hs : splitOnce ':' text.toList with
      | none => exact parsesExactly_of_error fun b => ⟨"time must be FROM:TO", by simp only [parseTime, hs]; rfl⟩
      | some parts =>
          obtain ⟨low, high⟩ := parts
          by_cases hlow : ∃ n unit, Duration low n unit
          · obtain ⟨n, unit, hn⟩ := hlow
            obtain ⟨hfrom, hto⟩ := h range low high n unit rfl hs hn
            by_cases hhigh : ∃ n' unit', Duration high n' unit'
            · obtain ⟨n', unit', hn'⟩ := hhigh
              exact parsesExactly_of_durations hs hn hfrom hn' (hto n' unit' hn')
            · push Not at hhigh
              exact parsesExactly_of_error (parseTime_of_not_high hs hn hfrom hhigh)
          · push Not at hlow
            exact parsesExactly_of_error (parseTime_of_not_low hs hlow)

/-- A range of time is exact or an error exactly when the times that it adds up fit. -/
theorem parsesExactly_iff (text : String) (bounds : Option TimeRange) :
    ParsesExactly text bounds ↔ TimesFit text bounds := by
  refine ⟨fun h range low high n unit hb hs hn => ?_, parsesExactly_of_fits⟩
  subst hb
  have hfits := h.fits
  rw [parseTime_eq hs] at hfits
  have hfrom : range.fromNs + n * unit ≤ u64Max := by
    by_contra hgt
    rw [timeAt_panics hn hgt] at hfits
    exact hfits rfl
  refine ⟨hfrom, fun n' unit' hn' => ?_⟩
  by_contra hgt
  rw [timeAt_of_le hn hfrom, ok_bind, timeAt_panics hn' hgt] at hfits
  exact hfits rfl

/-- The end of this range wraps around. -/
theorem lateEnd_not_parsesExactly :
    parseTime .release "0ns:18446744074s" (some ⟨100, 200⟩) = .ok ⟨100, 290448484⟩ ∧
      parseTime .debug "0ns:18446744074s" (some ⟨100, 200⟩) = .error .panic ∧
      ¬ ParsesExactly "0ns:18446744074s" (some ⟨100, 200⟩) :=
  have hpanic : parseTime .debug "0ns:18446744074s" (some ⟨100, 200⟩) = .error .panic := by decide
  ⟨by decide, hpanic, fun h => h.fits hpanic⟩

end SliceProfiler

namespace SliceProfiler.Cli

open Lib

/-! ## The listing of functions -/

section Symbols

variable {demangle : String → Option String} {toLowercase : String → String} {path : String} {file : ElfFile}
  {needle : Option String} {entries : List SymbolCandidate}

/-- The listing has each function with the needle once, in order, and a line gives back the address and the name. A
name from the listing is selected when all its functions but imports have one address; else the selection says that
there is none, or which addresses there are. -/
theorem symbols_agree (h : listSymbols demangle toLowercase path file needle = .ok entries) :
    entries.Pairwise (fun e e' => entryKey e < entryKey e') ∧
    (∀ e, e ∈ entries ↔ Names demangle file e ∧ Contains toLowercase needle e) ∧
    (∀ e : SymbolCandidate, ∃ digits, splitOnce '\t' (entryLine e).toList =
      some ('0' :: 'x' :: digits, e.demangledName.toList) ∧ 16 ≤ digits.length ∧
      (e.address ≤ u64Max → parseHex u64Max digits = some e.address)) ∧
    ∃ all, listSymbols demangle toLowercase path file none = .ok all ∧ entries ⊆ all ∧
      ∀ name, AgreesWith file all name (selectSymbol demangle file name) := by
  obtain ⟨e, he⟩ := List.exists_mem_of_ne_nil _ (listSymbols_eq_ok.mp h).2
  have hnames : ∀ {e}, e ∈ symbolEntries demangle toLowercase file none ↔ Names demangle file e := by
    intro e
    simp [mem_symbolEntries, Contains]
  have hall : listSymbols demangle toLowercase path file none =
      .ok (dedupByKey entryKey (sortByKey entryKey (symbolEntries demangle toLowercase file none))) := by
    refine listSymbols_eq_ok.mpr ⟨rfl, List.ne_nil_of_mem (a := e) ?_⟩
    exact (mem_dedup_sort entryKey_injective).mpr (hnames.mpr ((mem_listSymbols h).mp he).1)
  refine ⟨sorted_listSymbols h, fun e => mem_listSymbols h, fun e => ?_, _, hall, fun e he => ?_, fun name => ?_⟩
  · exact ⟨_, splitOnce_entryLine e, width_le_paddedHex 16 e.address, parseHex_paddedHex 16⟩
  · exact (mem_dedup_sort entryKey_injective).mpr (hnames.mpr ((mem_listSymbols h).mp he).1)
  · exact ⟨noFunction_iff hall, ambiguous_iff hall, fun a => selectSymbol_of_one hall⟩

/-- Two functions of one name, and a function that is imported. -/
def overloadedFile : ElfFile :=
  ⟨[⟨true, 0x2000, some "work"⟩, ⟨true, 0x1000, some "work"⟩],
    [⟨true, 0, some "puts"⟩, ⟨true, 0x1000, some "work"⟩], []⟩

theorem overloadedFile_agree : ∃ all, listSymbols (fun _ => none) id "a.out" overloadedFile none = .ok all ∧
    all.length = 3 ∧ AgreesWith overloadedFile all "puts" (selectSymbol (fun _ => none) overloadedFile "puts") ∧
    selectSymbol (fun _ => none) overloadedFile "work" = .error (.ambiguous "work" [0x1000, 0x2000]) ∧
    selectSymbol (fun _ => none) overloadedFile "puts" = .error (.noFunction "puts") := by
  have hlist : listSymbols (fun _ => none) id "a.out" overloadedFile none =
      .ok [⟨"puts", "puts", 0⟩, ⟨"work", "work", 0x1000⟩, ⟨"work", "work", 0x2000⟩] := by decide
  obtain ⟨-, -, -, all, hall, -, hagrees⟩ := symbols_agree hlist
  obtain rfl := Except.ok.inj (hlist.symm.trans hall)
  exact ⟨_, hlist, rfl, hagrees "puts", by decide, by decide⟩

end Symbols

/-! ## Orphans -/

variable {demangle : String → Option String} {read : String → Except Messages ElfFile} {args : ProfileArgs}
  {s : Session}

/-- In whatever order the three parties take their steps, no error return leaves an orphan exactly when each step is
clean. -/
theorem noOrphan_iff (h : Session.start demangle read args = .ok s) (events : List Event) :
    (∀ pre, pre <+: events → ∀ s', run Session.step s pre = some s' → s'.NoOrphan) ↔
      Along Session.step Session.Clean s events :=
  along_iff Session.Sound Session.NoOrphan (fun _ h => h.noOrphan) (fun _ _ _ h hc hs => sound_step h hc hs)
    (fun _ _ h hs => clean_of_noOrphan h hs) (sound_start h)

/-- An object file with one function. -/
def workFile : ElfFile := ⟨[⟨true, 0x1000, some "work"⟩], [], [⟨0, 0x4000, 0⟩]⟩

def launchArgs : ProfileArgs := ⟨none, none, "work", "work.slice", some "target", []⟩

def launchedSession : Session where
  args := launchArgs
  module := "target"
  selected := ⟨"work", "work", 0x1000, 0x1000⟩
  pid := 0
  pc := .spawn "target"

theorem start_launchArgs : Session.start (fun _ => none) (fun _ => .ok workFile) launchArgs = .ok launchedSession := by
  rfl

/-- The child is stopped with success. -/
def stopsChild : List Event := [.answer (.spawned (.ok 42)), .answer (.done (.ok ())), .answer (.done (.ok ()))]

/-- The status file of the child, with a state. -/
def targetStatus (state : String) : Event :=
  .answer (.status (.ok (s!"Name:\ttarget\nState:\t{state}\nTgid:\t42\nNSpid:\t42\n")))

def failsAttach : List Event :=
  stopsChild ++ [targetStatus "T (stopped)", .answer (.done (.ok ())), .answer (.done (.error ["no BPF"]))]

/-- The ring buffer cannot be set up, and the child is killed. -/
theorem failsAttach_noOrphan : ∃ s', run Session.step launchedSession failsAttach = some s' ∧ s'.launched = true ∧
    s'.killed = true ∧ s'.NoOrphan := by
  have hclean : Along Session.step Session.Clean launchedSession failsAttach := by
    refine along_cons (clean_of_not_mayLeave rfl) rfl ?_
    refine along_cons (clean_of_not_mayLeave rfl) rfl ?_
    refine along_cons (clean_of_not_mayLeave rfl) rfl ?_
    -- the identity of the child is in its status file
    refine along_cons ⟨by rintro - - _ ⟨⟩; decide, by rintro - ⟨⟩, by rintro - ⟨⟩⟩ rfl ?_
    refine along_cons (clean_of_not_mayLeave rfl) rfl ?_
    refine along_cons (clean_of_not_mayLeave rfl) rfl ?_
    trivial
  exact ⟨_, rfl, rfl, rfl, (noOrphan_iff start_launchArgs failsAttach).mpr hclean _ (List.prefix_refl _) _ rfl⟩

def emptyCapture : Profile := { recursiveCalls 0 with invocations := [], samples := [] }

/-- The calls from the start of the capture to its loop. -/
def attaches : List Event :=
  stopsChild ++
    [targetStatus "T (stopped)", .answer (.done (.ok ())), .answer (.done (.ok ())), .answer (.done (.ok ()))]

/-- The calls behind the loop of a capture that has seen no call. -/
def collectsNothing : List Event :=
  [.answer (.polled .ready), .answer (.polled .ready), .answer (.polled .ready), .answer (.collected emptyCapture)]

/-- The child stays stopped when its identity is not resolved. It runs on when a capture that has seen no call ends on a
zombie: its first thread has ended, and others run. And it runs on when the capture ends on a request to stop that the
handler has not passed on. -/
theorem launch_orphans : Session.start (fun _ => none) (fun _ => .ok workFile) launchArgs = .ok launchedSession ∧
    (∃ s', run Session.step launchedSession
        (stopsChild ++ [.answer (.status (.error ["permission denied"]))]) = some s' ∧
      s'.launched = true ∧ s'.killed = false ∧ s'.status = .stopped ∧ ¬ s'.NoOrphan) ∧
    (∃ s', run Session.step launchedSession (attaches ++ targetStatus "Z (zombie)" :: collectsNothing) = some s' ∧
      s'.launched = true ∧ s'.killed = false ∧ s'.interrupted = false ∧ s'.status = .running ∧ ¬ s'.NoOrphan) ∧
    ∃ s', run Session.step launchedSession
        (attaches ++ targetStatus "S (sleeping)" :: .ctrlC :: .answer .seen :: collectsNothing) = some s' ∧
      s'.launched = true ∧ s'.killed = false ∧ s'.interrupted = false ∧ s'.status = .running ∧ ¬ s'.NoOrphan := by
  refine ⟨start_launchArgs, ⟨_, rfl, rfl, rfl, rfl, fun h => ?_⟩, ⟨_, rfl, rfl, rfl, rfl, rfl, fun h => ?_⟩,
    ⟨_, rfl, rfl, rfl, rfl, rfl, fun h => ?_⟩⟩
  · exact absurd ((h _ rfl rfl).2 rfl) (by decide)
  · exact absurd (h _ rfl rfl).1 (by decide)
  · exact absurd (h _ rfl rfl).1 (by decide)

/-! ## The report of a file -/

section View

variable {l : FileLayers} {bytes : List UInt8}

theorem view_eq (hread : Profile.fromBytes l bytes = .ok p) (b : Build) (a : ViewArgs) :
    view b l bytes a = match viewQuery b p a with
      | .ok q => .ok (Viewer.initialState p q)
      | .error f => .error (.arguments f) := by
  obtain ⟨-, -, -, hv⟩ := of_fromBytes hread
  simp only [view, hread, hv, Except.mapError, ok_bind]
  cases hq : viewQuery b p a with
  | error f => rfl
  | ok q =>
      have hrender : Viewer.renderHtml p q = .ok (Viewer.initialState p q) :=
        Viewer.renderHtml_eq_ok.mpr ⟨hv, (viewQuery_eq_ok.mp hq).executes hv, rfl⟩
      simp only [ok_bind, hrender]

/-- The report of a profile that was read shows what the arguments ask for, and it fails only when they ask for
nothing. -/
theorem view_asks (hread : Profile.fromBytes l bytes = .ok p) (b : Build) (a : ViewArgs) :
    (∀ page, view b l bytes a = .ok page ↔ ∃ q, a.Asks b p q ∧ page = Viewer.initialState p q) ∧
    ∀ e, view b l bytes a = .error e → (∃ f, e = .arguments f) ∧ ∀ q, ¬ a.Asks b p q := by
  rw [view_eq hread]
  cases hq : viewQuery b p a with
  | ok q =>
      refine ⟨fun page => ⟨fun h => ⟨q, viewQuery_eq_ok.mp hq, (Except.ok.inj h).symm⟩, ?_⟩, fun e h => by cases h⟩
      rintro ⟨q', hasks, rfl⟩
      rw [viewQuery_eq_ok.mpr hasks] at hq
      cases hq
      rfl
  | error f =>
      have hnone : ∀ q, ¬ a.Asks b p q := by
        intro q hasks
        rw [viewQuery_eq_ok.mpr hasks] at hq
        cases hq
      refine ⟨fun page => ⟨(fun h => by cases h), ?_⟩, fun e h => ?_⟩
      · rintro ⟨q, hasks, -⟩
        exact absurd hasks (hnone q)
      · cases h
        exact ⟨⟨f, rfl⟩, hnone⟩

theorem toBytes_fourCalls : fourCalls.toBytes fourCallsLayers = .ok (fileMagic ++ fourCallsPayload) :=
  toBytes_of_layers rfl (if_pos rfl)

def twoTids : ViewArgs := { path := "capture.slice", threads := some "7, +8", percentile := "5:+95" }

theorem fourCalls_view : ∃ page, view .release fourCallsLayers (fileMagic ++ fourCallsPayload) twoTids = .ok page ∧
    page = Viewer.initialState fourCalls ⟨1, some {7, 8}, none, ⟨5, 95⟩, .wall⟩ := by
  have hread : Profile.fromBytes fourCallsLayers (fileMagic ++ fourCallsPayload) = .ok fourCalls :=
    fromBytes_recordedLayers (by decide) (by decide) _ _
  refine ⟨_, ((view_asks hread .release twoTids).1 _).mpr ⟨_, viewQuery_eq_ok.mp ?_, rfl⟩, rfl⟩
  decide

end View

/-! ## Supervision -/

section Supervision

variable {demangle : String → Option String} {read : String → Except Messages ElfFile} {args : ProfileArgs}
  {s s' s'' : Session} {events more : List Event}

/-- In every session a process that was running before is left alone, and a child is paused until the probes are
attached. A success has saved one profile, which has a complete and valid invocation, and no session saves two. -/
theorem session_supervises (h : Session.start demangle read args = .ok s) (hrun : run Session.step s events = some s') :
    s'.Supervises ∧ (trace Session.step Session.saves s events).length ≤ 1 ∧
    (s'.pc = .returned (.ok ()) → ∃ profile, trace Session.step Session.saves s events = [profile] ∧
      completeInvocations profile ≠ 0) := by
  have hsupervised : s'.Supervised :=
    run_invariant Session.Supervised (fun _ _ _ hs _ => hs.step) (supervised_start h)
      (along_of_forall (P := fun _ => True) fun _ _ => trivial) hrun
  have hsaved : s'.Saved (trace Session.step Session.saves s events) :=
    run_trace (fun saved t => t.Saved saved) (fun _ _ _ _ hs => saved_step hs) (saved_start h) hrun
  refine ⟨hsupervised.toSupervises, hsaved.length_le, fun hpc => ?_⟩
  simpa only [Session.Saved, hpc] using hsaved

/-- The target exits in the loop, and its capture is saved. -/
def savesCapture : List Event :=
  attaches ++ [targetStatus "S (sleeping)", .answer .seen, .answer (.polled .ready), .exits, targetStatus "Z (zombie)",
    .answer (.polled .ready), .answer (.polled .ready), .answer (.polled .ready), .answer (.collected fourCalls),
    .answer (.done (.ok ())), .answer (.done (.ok ()))]

theorem savesCapture_supervises : ∃ s', run Session.step launchedSession savesCapture = some s' ∧
    s'.pc = .returned (.ok ()) ∧ s'.Supervises ∧
    ∃ profile, trace Session.step Session.saves launchedSession savesCapture = [profile] ∧
      completeInvocations profile ≠ 0 := by
  obtain ⟨hsupervises, -, hsaved⟩ :=
    session_supervises start_launchArgs (rfl : run Session.step launchedSession savesCapture = some _)
  exact ⟨_, rfl, rfl, hsupervises, hsaved rfl⟩

/-- Once the process has exited or a request to stop has come, 18 more calls at most return. When all calls return but
the wait for a child that runs on, the session returns behind the exit of the process; behind a request to stop it may
also come to this wait. A launch returns a success behind the exit of the child. -/
theorem session_ends {states : Nat → Session} {events : Nat → Event}
    (h : Session.start demangle read args = .ok (states 0)) (hrun : Endless Session.step states events)
    (hfits : ∀ n, (states n).fits (events n) = true) :
    (∀ n, (states n).Ended → ∀ m, ((List.range' n m).map events).countP Event.isAnswer ≤ 18) ∧
    (∀ n, (states n).launched = true → (states n).pc = .returned (.ok ()) → (states n).status = .exited) ∧
    ((∀ n, ¬ (states n).Returned → ¬ (states n).Waits → ∃ m ≥ n, (events m).isAnswer = true) →
      (∀ n, (states n).Ended → ∃ m ≥ n, (states m).Returned ∨ (states m).Waits) ∧
      ∀ n, (states n).status = .exited → ∃ m ≥ n, (states m).Returned) := by
  let fits : Session → Event → Prop := fun s e => s.fits e = true
  have hdrains : ∀ n, (states n).Drains := fun n =>
    hrun.invariant fits Session.Drains (fun _ _ _ hs _ => hs.step) hfits (drains_start h) (Nat.zero_le n)
  have houtlives : ∀ n, (states n).Outlives := fun n =>
    hrun.invariant fits Session.Outlives (fun _ _ _ hs hc => hs.step hc) hfits (outlives_start h) (Nat.zero_le n)
  have hended : ∀ s e s', Session.Ended s → s.fits e = true → s.step e = some s' →
      s'.Ended ∧ s'.callsLeft + (if e.isAnswer then 1 else 0) ≤ s.callsLeft := fun _ _ _ hs hc => hs.step hc
  refine ⟨fun n he m => ?_, houtlives, fun hfair => ⟨fun n he => ?_, fun n hx => ?_⟩⟩
  · have hrank := run_rank Session.Ended Session.callsLeft Event.isAnswer hended he
      (hrun.along (C := fits) hfits n m) (hrun.run n m)
    have hle := (hdrains n).callsLeft_le
    omega
  · refine hrun.eventually Session.Ended (fun s => s.Returned ∨ s.Waits) Session.callsLeft Event.isAnswer
      hended hfits he fun m _ hgoal => ?_
    exact hfair m (fun hr => hgoal (.inl hr)) fun hw => hgoal (.inr hw)
  · refine hrun.eventually Session.Ended Session.Returned Session.callsLeft Event.isAnswer hended hfits (.inl hx)
      fun m hm hreturned => hfair m hreturned fun hw => hw.2 ?_
    exact hrun.invariant fits (·.status = .exited) (fun _ _ _ hs _ => exited_step hs) hfits hx hm

/-- The run of `savesCapture`, and nothing behind it but exits. -/
def savesCaptureStates : Nat → Session := statesFrom Session.step launchedSession (savesCapture.getD · .exits)

theorem savesCapture_ends : (savesCaptureStates 11).status = .exited ∧ ∃ m ≥ 11, (savesCaptureStates m).Returned := by
  have hrest : ∀ {n}, ¬ n < savesCapture.length → savesCapture.getD n .exits = .exits := fun hn =>
    List.getD_eq_default _ _ (not_lt.mp hn)
  have hrun : Endless Session.step savesCaptureStates (savesCapture.getD · .exits) := by
    refine endless_statesFrom fun n => ?_
    by_cases hn : n < savesCapture.length
    · revert n
      decide
    · rw [hrest hn]
      rfl
  have hfits : ∀ n, (savesCaptureStates n).fits (savesCapture.getD n .exits) = true := by
    intro n
    by_cases hn : n < savesCapture.length
    · revert n
      decide
    · rw [hrest hn]
      rfl
  have hreturned : ∀ n ≥ 18, (savesCaptureStates n).Returned := fun n hn =>
    hrun.invariant (fun s e => s.fits e = true) Session.Returned (fun _ _ _ hs _ => hs.step) hfits ⟨.ok (), rfl⟩ hn
  obtain ⟨-, -, hfair⟩ := session_ends start_launchArgs hrun hfits
  refine ⟨rfl, (hfair fun n hn _ => ⟨17, ?_, rfl⟩).2 11 rfl⟩
  by_contra hlt
  exact hn (hreturned n (by omega))

end Supervision

/-! ## The output file -/

theorem toBytes_of_data {l : FileLayers} {p : Profile} {bytes : List UInt8} (h : (p.toBytes l).toOption = some bytes) :
    p.toBytes l = .ok bytes := by
  cases hb : p.toBytes l with
  | error e => rw [hb] at h; cases h
  | ok bytes' => rw [hb] at h; cases h; rfl

/-- Any number of processes write one output while others read it; calls fail, and processes crash. The output always
holds what it held before or the bytes of one profile, and so does whatever a reader gets. Behind a success it is a
profile. A process leaves no file of its own behind, unless it crashes or cannot remove it. -/
theorem output_atomic (l : FileLayers) (profiles : Nat → Profile) {output : Path} {name : String}
    (h : outputName output = .ok name) {d : Disk Path UInt8} (hd : (publishers l profiles h).Separate d)
    {events : List (PublishEvent Nat Nat)} {s : Published Path Nat Nat UInt8}
    (hrun : run (publishers l profiles h).step (.initial d) events = some s) :
    (s.disk.read output = d.read output ∨ ∃ bytes, s.disk.read output = some bytes ∧ WrittenBy l profiles s bytes) ∧
    (∀ r bytes, s.readers r = .returned (some bytes) → d.read output = some bytes ∨ WrittenBy l profiles s bytes) ∧
    (∀ pid, s.writers pid = .renamed → ∃ bytes, s.disk.read output = some bytes ∧ WrittenBy l profiles s bytes) ∧
    ∀ pid, s.writers pid = .renamed ∨ s.writers pid = .failed true →
      s.disk.read (output.temporary name pid) = none := by
  have hinv : (publishers l profiles h).Invariant (d.read output) s := Publishers.invariant_run hd hrun
  have hcomplete : ∀ bytes, (publishers l profiles h).Complete (d.read output) s.writers bytes →
      d.read output = some bytes ∨ WrittenBy l profiles s bytes :=
    fun bytes hb => hb.imp_right fun ⟨pid, hpid, hdata⟩ => ⟨pid, hpid, toBytes_of_data hdata⟩
  refine ⟨?_, fun r bytes hr => hcomplete bytes ?_, fun pid hpid => ?_, fun pid hpid => ?_⟩
  · refine hinv.read_output.imp_right fun ⟨pid, bytes, hpid, hdata, hread⟩ => ?_
    exact ⟨bytes, hread, pid, hpid, toBytes_of_data hdata⟩
  · have hsaw := hinv.saw r
    rw [hr] at hsaw
    exact hsaw
  · obtain ⟨i, q, hi, hq, hdata⟩ := hinv.replaced pid hpid
    refine ⟨s.disk.contents i, ?_, q, hq, toBytes_of_data hdata⟩
    exact Option.map_eq_some_iff.mpr ⟨i, hi, rfl⟩
  · have hfilled : s.disk.names (output.temporary name pid) = none := by
      have hf := hinv.filled pid
      rcases hpid with hpid | hpid
      · rw [hpid] at hf
        exact hf
      · rw [hpid] at hf
        exact hf
    rw [Disk.read, hfilled]
    rfl

def sharedOutput : Path := [.rootDir, .normal "tmp", .normal "capture.slice"]

/-- An older profile is under the output. -/
def olderDisk : Disk Path UInt8 where
  names path := if path = sharedOutput then some 0 else none
  contents _ := [83, 76]
  fresh := 1

/-- A reader opens the older profile; one process crashes in the middle of its write; another one finishes and renames
its file before the reader goes on. -/
def sharedEvents : List (PublishEvent Nat Nat) :=
  [.look 1 true 0, .advance 100 true 0, .advance 200 true 0, .advance 200 true 20, .advance 100 true 9, .crash 100,
    .advance 200 true 2000, .advance 200 true 0, .look 1 true 0, .look 2 true 0, .look 1 true 7, .look 2 true 2000,
    .look 1 true 0, .look 2 true 0]

/-- The processes of the run, with the bytes of the profile. -/
def fourCallsWriters : Publishers Path Nat UInt8 :=
  { publishers fourCallsLayers (fun _ => fourCalls) (rfl : outputName sharedOutput = .ok "capture.slice") with
    data := fun _ => some (fileMagic ++ fourCallsPayload) }

theorem publishers_fourCalls :
    publishers fourCallsLayers (fun _ => fourCalls) (rfl : outputName sharedOutput = .ok "capture.slice") =
      fourCallsWriters := by
  unfold fourCallsWriters publishers
  simp only [toBytes_fourCalls]
  rfl

theorem separate_olderDisk {w : Publishers Path Nat UInt8} : w.Separate olderDisk := by
  have hname : ∀ {n i}, olderDisk.names n = some i → n = sharedOutput ∧ i = 0 := by
    intro n i hn
    simp only [olderDisk] at hn
    split at hn
    · rename_i he
      exact ⟨he, (Option.some.inj hn).symm⟩
    · cases hn
  constructor
  · intro m n i _ _ hm hn
    rw [(hname hm).1, (hname hn).1]
  · intro n i _ hn
    rw [(hname hn).2]
    exact Nat.zero_lt_one

def sharedEnd : Published Path Nat Nat UInt8 :=
  (run fourCallsWriters.step (.initial olderDisk) sharedEvents).get (by decide +kernel)

theorem sharedOutput_atomic :
    sharedEnd.readers 1 = .returned (some [83, 76]) ∧
      sharedEnd.readers 2 = .returned (some (fileMagic ++ fourCallsPayload)) ∧
      sharedEnd.writers 100 = .crashed ∧ sharedEnd.writers 200 = .renamed ∧
      ∃ bytes, sharedEnd.disk.read sharedOutput = some bytes ∧
        WrittenBy fourCallsLayers (fun _ => fourCalls) sharedEnd bytes := by
  have hrun :
      run (publishers fourCallsLayers (fun _ => fourCalls) (rfl : outputName sharedOutput = .ok "capture.slice")).step
      (.initial olderDisk) sharedEvents = some sharedEnd := by
    rw [publishers_fourCalls]
    exact (Option.some_get _).symm
  have hrenamed : sharedEnd.writers 200 = .renamed := by decide +kernel
  exact ⟨by decide +kernel, by decide +kernel, by decide +kernel, hrenamed,
    (output_atomic fourCallsLayers _ rfl separate_olderDisk hrun).2.2.1 200 hrenamed⟩

end SliceProfiler.Cli
