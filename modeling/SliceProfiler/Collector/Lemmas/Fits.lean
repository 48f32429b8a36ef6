import SliceProfiler.Collector.Source
import SliceProfiler.Core.Lemmas.Fits

/-!
# The collector keeps numbers in range

From events whose fields have the values of their types, no number of the correlator or of the profile leaves the
range of its type.
-/

namespace SliceProfiler

open Lib

/-! ## Ranges -/

structure PendingSample.Fits (s : PendingSample) : Prop where
  tid : s.tid ≤ u32Max
  timestampNs : s.timestampNs ≤ u64Max
  cpu : s.cpu ≤ u32Max
  weightNs : s.weightNs ≤ u64Max
  frames : ∀ f ∈ s.frames, frameCodec.fits f = true

structure ActiveInvocation.Fits (a : ActiveInvocation) : Prop where
  id : a.id ≤ u64Max
  functionId : a.functionId ≤ u32Max
  tid : a.tid ≤ u32Max
  startNs : a.startNs ≤ u64Max

structure SourceInvocation.Fits (i : SourceInvocation) : Prop where
  id : i.id ≤ u64Max
  functionId : ∀ functionId, i.functionId = some functionId → functionId ≤ u32Max
  tid : i.tid ≤ u32Max
  startNs : ∀ startNs, i.startNs = some startNs → startNs ≤ u64Max
  endNs : ∀ endNs, i.endNs = some endNs → endNs ≤ u64Max
  samples : ∀ s ∈ i.samples, s.Fits

/-- The values of an event are in range. -/
def CollectorEvent.Fits : CollectorEvent → Prop
  | .entry id functionId tid timestampNs | .ret id functionId tid timestampNs =>
      (∀ i, id = some i → i ≤ u64Max) ∧ functionId ≤ u32Max ∧ tid ≤ u32Max ∧ timestampNs ≤ u64Max
  | .violation _ _ => True
  | .sample id s => (∀ i, id = some i → i ≤ u64Max) ∧ s.Fits
  | .droppedEvents _ | .droppedSamples _ => True

structure Correlator.Fits (c : Correlator) : Prop where
  nextInvocationId : c.nextInvocationId ≤ u64Max
  nextStackId : c.nextStackId ≤ u32Max
  active : ∀ tid a, c.active.lookup tid = some a → a.Fits
  stackIds : ∀ frames id, c.stackIds.lookup frames = some id → id ≤ u32Max
  source : ∀ id i, c.sourceInvocations.lookup id = some i → i.Fits

/-- The correlator and the profile that it fills. -/
def InRange (s : Correlator × Profile) : Prop := s.1.Fits ∧ s.2.Fits

variable {c : Correlator} {p : Profile} {q : CaptureQuality} {s : PendingSample} {i : SourceInvocation}
  {functionId tid timestampNs : Nat}

/-! ## Counters -/

/-- A change that only adds to counters. -/
def Counts (f : CaptureQuality → CaptureQuality) : Prop :=
  ∀ q, captureQualityCodec.fits q = true → captureQualityCodec.fits (f q) = true

theorem counts_generateEvent : Counts .generateEvent := fun q h => by
  rw [quality_fits_iff] at h ⊢
  exact ⟨satAdd64_le .., h.2⟩

theorem counts_generateSample : Counts .generateSample := fun q h => by
  rw [quality_fits_iff] at h ⊢
  exact ⟨h.1, h.2.1, satAdd64_le .., h.2.2.2⟩

theorem counts_dropEvents (count : Nat) : Counts (.dropEvents count) := fun q h => by
  rw [quality_fits_iff] at h ⊢
  exact ⟨h.1, satAdd64_le .., h.2.2⟩

theorem counts_dropSamples (count : Nat) : Counts (.dropSamples count) := fun q h => by
  rw [quality_fits_iff] at h ⊢
  exact ⟨h.1, h.2.1, h.2.2.1, satAdd64_le .., h.2.2.2.2⟩

theorem counts_complete : Counts .complete := fun q h => by
  rw [quality_fits_iff] at h ⊢
  exact ⟨h.1, h.2.1, h.2.2.1, h.2.2.2.1, satAdd64_le .., h.2.2.2.2.2⟩

theorem counts_incomplete : Counts .incomplete := fun q h => by
  rw [quality_fits_iff] at h ⊢
  exact ⟨h.1, h.2.1, h.2.2.1, h.2.2.2.1, h.2.2.2.2.1, satAdd64_le .., h.2.2.2.2.2.2⟩

theorem counts_mismatch : Counts .mismatch := fun q h => by
  rw [quality_fits_iff] at h ⊢
  exact ⟨h.1, h.2.1, h.2.2.1, h.2.2.2.1, h.2.2.2.2.1, h.2.2.2.2.2.1, satAdd64_le .., h.2.2.2.2.2.2.2⟩

theorem counts_suspect : Counts .suspect := fun q h => by
  rw [quality_fits_iff] at h ⊢
  exact ⟨h.1, h.2.1, h.2.2.1, h.2.2.2.1, h.2.2.2.2.1, h.2.2.2.2.2.1, h.2.2.2.2.2.2.1, satAdd64_le ..⟩

theorem Profile.Fits.count (h : p.Fits) {f : CaptureQuality → CaptureQuality} (hf : Counts f) : (p.count f).Fits :=
  h.setQuality (hf _ h.quality)

/-! ## Samples -/

theorem InRange.appendSample (h : InRange (c, p)) {id : Nat} (hid : id ≤ u64Max) (hs : s.Fits) :
    InRange (c.appendSample p id s) := by
  obtain ⟨hc, hp⟩ := h
  simp only [Correlator.appendSample, Correlator.internStack]
  cases hl : c.stackIds.lookup s.frames with
  | some stackId =>
      exact ⟨hc, hp.addSample (sample_fits_iff.mpr
        ⟨hs.timestampNs, hid, hc.stackIds _ _ hl, hs.tid, hs.cpu, hs.weightNs⟩)⟩
  | none =>
      refine ⟨{ hc with nextStackId := satAdd32_le .., stackIds := fun frames id' h' => ?_ }, ?_⟩
      · rcases of_lookup_insert h' with ⟨-, rfl⟩ | ⟨-, h'⟩
        · exact hc.nextStackId
        · exact hc.stackIds frames id' h'
      · exact (hp.addStack (stack_fits_iff.mpr ⟨hc.nextStackId, hs.frames⟩)).addSample (sample_fits_iff.mpr
          ⟨hs.timestampNs, hid, hc.nextStackId, hs.tid, hs.cpu, hs.weightNs⟩)

/-! ## Events with a transport identity -/

theorem SourceInvocation.Fits.onEntry (h : i.Fits) (hf : functionId ≤ u32Max) (ht : tid ≤ u32Max)
    (hn : timestampNs ≤ u64Max) : (i.onEntry functionId tid timestampNs).Fits := by
  unfold SourceInvocation.onEntry
  split
  · exact { h with }
  · exact { h with
      functionId := fun _ hx => by cases hx; exact hf
      tid := ht
      startNs := fun _ hx => by cases hx; exact hn }

theorem SourceInvocation.Fits.onReturn (h : i.Fits) (hf : functionId ≤ u32Max) (hn : timestampNs ≤ u64Max) :
    (i.onReturn functionId tid timestampNs).Fits := by
  refine { h with functionId := fun f hx => ?_, endNs := fun _ hx => by cases hx; exact hn }
  cases hi : i.functionId with
  | none => simp only [SourceInvocation.onReturn, hi] at hx; cases hx; exact hf
  | some known => simp only [SourceInvocation.onReturn, hi] at hx; cases hx; exact h.functionId _ hi

theorem SourceInvocation.Fits.onSample (h : i.Fits) (hs : s.Fits) : (i.onSample s).Fits :=
  { h with samples := by simpa [SourceInvocation.onSample, or_imp, forall_and] using ⟨h.samples, hs⟩ }

/-- An update of the record of an id, new or found. -/
theorem Correlator.Fits.update (h : c.Fits) {id : Nat} {f : Option SourceInvocation → SourceInvocation} (mode : Bool)
    (hnew : (f none).Fits) (hfound : ∀ i, i.Fits → (f (some i)).Fits) :
    { c with sourceMode := mode, sourceInvocations := c.sourceInvocations.upsert id f }.Fits := by
  refine { h with source := fun k i hk => ?_ }
  rw [Map.lookup_upsert] at hk
  split at hk
  · cases hk
    cases hl : c.sourceInvocations.lookup id with
    | none => exact hnew
    | some found => exact hfound found (h.source id found hl)
  · exact h.source k i hk

theorem Correlator.Fits.sourceEntry (h : c.Fits) {id : Nat} (hid : id ≤ u64Max) (hf : functionId ≤ u32Max)
    (ht : tid ≤ u32Max) (hn : timestampNs ≤ u64Max) : (c.sourceEntry id functionId tid timestampNs).Fits := by
  refine h.update true (.onEntry ⟨hid, ?_, ht, ?_, nofun, nofun⟩ hf ht hn) fun i hi => hi.onEntry hf ht hn
  · rintro _ ⟨⟩; exact hf
  · rintro _ ⟨⟩; exact hn

theorem Correlator.Fits.sourceReturn (h : c.Fits) {id : Nat} (hid : id ≤ u64Max) (hf : functionId ≤ u32Max)
    (ht : tid ≤ u32Max) (hn : timestampNs ≤ u64Max) : (c.sourceReturn id functionId tid timestampNs).Fits := by
  refine h.update true (.onReturn ⟨hid, ?_, ht, nofun, ?_, nofun⟩ hf hn) fun i hi => hi.onReturn hf hn
  · rintro _ ⟨⟩; exact hf
  · rintro _ ⟨⟩; exact hn

theorem Correlator.Fits.sourceSample (h : c.Fits) {id : Nat} (hid : id ≤ u64Max) (hs : s.Fits) :
    (c.sourceSample id s).Fits :=
  h.update true (.onSample ⟨hid, nofun, hs.tid, nofun, nofun, nofun⟩ hs) fun _ hi => hi.onSample hs

/-! ## Events without an identity -/

theorem Correlator.Fits.setActive (h : c.Fits) {a : ActiveInvocation} (ha : a.Fits) :
    { c with active := c.active.insert tid a }.Fits := by
  refine { h with active := fun k b hb => ?_ }
  rcases of_lookup_insert hb with ⟨-, rfl⟩ | ⟨-, hb⟩
  · exact ha
  · exact h.active k b hb

/-- The record that closes an active invocation. -/
theorem ActiveInvocation.Fits.record {a : ActiveInvocation} (h : a.Fits) (ht : tid ≤ u32Max) {endNs : Nat}
    (hn : endNs ≤ u64Max) (complete valid : Bool) :
    invocationCodec.fits ⟨a.id, a.functionId, none, tid, a.startNs, endNs, complete, valid⟩ = true :=
  invocation_fits_iff.mpr ⟨h.id, h.functionId, nofun, ht, h.startNs, hn⟩

theorem InRange.localEntry (h : InRange (c, p)) (hf : functionId ≤ u32Max) (ht : tid ≤ u32Max)
    (hn : timestampNs ≤ u64Max) : InRange (c.localEntry p functionId tid timestampNs) := by
  obtain ⟨hc, hp⟩ := h
  refine ⟨?_, ?_⟩
  · have hnext : { c with nextInvocationId := satAdd64 c.nextInvocationId 1 }.Fits :=
      { hc with nextInvocationId := satAdd64_le .. }
    exact hnext.setActive ⟨hc.nextInvocationId, hf, ht, hn⟩
  · simp only [Correlator.localEntry]
    cases hl : c.active.lookup tid with
    | none => exact hp
    | some existing =>
        have he := hc.active _ _ hl
        exact (hp.addInvocation (he.record ht (max_le hn he.startNs) false false)).setQuality
          (counts_suspect _ (counts_mismatch _ (counts_incomplete _ hp.quality)))

theorem InRange.localReturn (h : InRange (c, p)) (ht : tid ≤ u32Max) (hn : timestampNs ≤ u64Max) :
    InRange (c.localReturn p functionId tid timestampNs) := by
  obtain ⟨hc, hp⟩ := h
  unfold Correlator.localReturn
  cases hl : c.active.lookup tid with
  | none => exact ⟨hc, hp.count counts_mismatch⟩
  | some a =>
      refine ⟨{ hc with active := fun k b hb => hc.active k b (of_lookup_erase hb).2 }, ?_⟩
      refine (hp.addInvocation ((hc.active _ _ hl).record ht hn true _)).setQuality ?_
      split
      · exact counts_complete _ hp.quality
      · exact counts_incomplete _ (counts_mismatch _ hp.quality)

theorem InRange.localSample (h : InRange (c, p)) (hs : s.Fits) : InRange (c.localSample p s) := by
  unfold Correlator.localSample
  cases hl : c.active.lookup s.tid with
  | none => exact h
  | some a =>
      dsimp only
      split
      · exact h.appendSample (h.1.active _ _ hl).id hs
      · exact h

theorem InRange.violation (h : InRange (c, p)) : InRange (c.violation p tid timestampNs) := by
  obtain ⟨hc, hp⟩ := h
  have hc' : { c with sourceViolations := c.sourceViolations ++ [(tid, timestampNs)] }.Fits := { hc with }
  have hq : (p.count fun q => q.mismatch.suspect).Fits :=
    hp.count fun q hq => counts_suspect _ (counts_mismatch _ hq)
  simp only [Correlator.violation]
  cases hl : c.active.lookup tid with
  | none => exact ⟨hc', hp.count counts_mismatch⟩
  | some a =>
      refine ⟨hc'.setActive { hc.active _ _ hl with }, ?_⟩
      dsimp only
      split
      · exact hq.count counts_mismatch
      · exact hq

theorem InRange.push (h : InRange (c, p)) {e : CollectorEvent} (he : e.Fits) : InRange (c.push p e) := by
  have hevent : InRange (c, p.count .generateEvent) := ⟨h.1, h.2.count counts_generateEvent⟩
  have hsample : InRange (c, p.count .generateSample) := ⟨h.1, h.2.count counts_generateSample⟩
  cases e with
  | entry id functionId tid timestampNs =>
      obtain ⟨hid, hf, ht, hn⟩ := he
      cases id with
      | none => exact hevent.localEntry hf ht hn
      | some id => exact ⟨h.1.sourceEntry (hid id rfl) hf ht hn, hevent.2⟩
  | ret id functionId tid timestampNs =>
      obtain ⟨hid, hf, ht, hn⟩ := he
      cases id with
      | none => exact hevent.localReturn ht hn
      | some id => exact ⟨h.1.sourceReturn (hid id rfl) hf ht hn, hevent.2⟩
  | violation tid timestampNs => exact hevent.violation
  | sample id s =>
      obtain ⟨hid, hs⟩ := he
      cases id with
      | none => exact hsample.localSample hs
      | some id => exact ⟨h.1.sourceSample (hid id rfl) hs, hsample.2⟩
  | droppedEvents count => exact ⟨h.1, h.2.count (counts_dropEvents count)⟩
  | droppedSamples count => exact ⟨h.1, h.2.count (counts_dropSamples count)⟩

theorem inRange_pushAll {es : List CollectorEvent} (he : ∀ e ∈ es, e.Fits) (h : InRange (c, p)) :
    InRange (pushAll (c, p) es) := by
  induction es generalizing c p with
  | nil => exact h
  | cons e es ih =>
      exact ih (fun e' h' => he e' (List.mem_cons_of_mem _ h')) (h.push (he e (List.mem_cons_self ..)))

/-! ## The end of the capture -/

theorem fits_markViolation {l : List SourceInvocation} (hl : ∀ i ∈ l, i.Fits) (hq : captureQualityCodec.fits q = true)
    (v : Nat × Nat) : (∀ i ∈ (markViolation (l, q) v).1, i.Fits) ∧
      captureQualityCodec.fits (markViolation (l, q) v).2 = true := by
  constructor
  · intro i hi
    obtain ⟨j, hj, rfl⟩ := List.mem_map.mp hi
    split
    · exact { hl j hj with }
    · exact hl j hj
  · simp only [markViolation]
    clear hl
    induction l generalizing q with
    | nil => exact hq
    | cons i l ih =>
        rw [List.foldl_cons]
        refine ih ?_
        split
        · exact counts_suspect q hq
        · exact hq

theorem fits_markViolations (vs : List (Nat × Nat)) {l : List SourceInvocation} (hl : ∀ i ∈ l, i.Fits)
    (hq : captureQualityCodec.fits q = true) : (∀ i ∈ (vs.foldl markViolation (l, q)).1, i.Fits) ∧
      captureQualityCodec.fits (vs.foldl markViolation (l, q)).2 = true := by
  induction vs generalizing l q with
  | nil => exact ⟨hl, hq⟩
  | cons v vs ih =>
      obtain ⟨hl', hq'⟩ := fits_markViolation hl hq v
      exact ih hl' hq'

theorem InRange.finishSample {x : Correlator × Profile} (h : InRange x) {id : Nat} (hid : id ≤ u64Max)
    (startNs endNs : Nat) (hs : s.Fits) : InRange (Correlator.finishSample id startNs endNs x s) := by
  unfold Correlator.finishSample
  split
  · exact ⟨h.1, h.2.count counts_mismatch⟩
  · exact InRange.appendSample h hid hs

theorem InRange.finishSamples {x : Correlator × Profile} (h : InRange x) {id : Nat} (hid : id ≤ u64Max)
    (startNs endNs : Nat) {samples : List PendingSample} (hs : ∀ s ∈ samples, s.Fits) :
    InRange (samples.foldl (Correlator.finishSample id startNs endNs) x) := by
  induction samples generalizing x with
  | nil => exact h
  | cons s samples ih =>
      exact ih (h.finishSample hid startNs endNs (hs s (List.mem_cons_self ..)))
        fun s' h' => hs s' (List.mem_cons_of_mem _ h')

theorem InRange.finishInvocation (h : InRange (c, p)) (hi : i.Fits) (hn : timestampNs ≤ u64Max) :
    InRange (Correlator.finishInvocation timestampNs (c, p) i) := by
  unfold Correlator.finishInvocation
  split
  · rename_i functionId startNs hf hs
    have hend : i.endNs.getD (max timestampNs startNs) ≤ u64Max := by
      cases he : i.endNs with
      | none => exact max_le hn (hi.startNs _ hs)
      | some endNs => exact hi.endNs _ he
    have hrecord (complete valid : Bool) : invocationCodec.fits
        ⟨i.id, functionId, none, i.tid, startNs, i.endNs.getD (max timestampNs startNs), complete, valid⟩ = true :=
      invocation_fits_iff.mpr ⟨hi.id, hi.functionId _ hf, nofun, hi.tid, hi.startNs _ hs, hend⟩
    dsimp only
    split
    · refine InRange.finishSamples ?_ hi.id _ _ hi.samples
      exact ⟨h.1, (h.2.addInvocation (hrecord _ _)).count counts_complete⟩
    · refine ⟨h.1, (h.2.addInvocation (hrecord _ _)).count fun q hq => ?_⟩
      split
      · exact counts_mismatch _ (counts_incomplete q hq)
      · exact counts_incomplete q hq
  · exact h

theorem InRange.finishSource (h : InRange (c, p)) (hn : timestampNs ≤ u64Max) :
    InRange (c.finishSource p timestampNs) := by
  obtain ⟨hc, hp⟩ := h
  have hvalues : ∀ i ∈ c.sourceInvocations.values, i.Fits := by
    intro i hi
    obtain ⟨id, hl⟩ := Map.mem_values.mp hi
    exact hc.source id i hl
  obtain ⟨hl, hq⟩ := fits_markViolations c.sourceViolations hvalues hp.quality
  have hstart : InRange ({ c with sourceInvocations := ∅ }, { p with
      quality := (c.sourceViolations.foldl markViolation (c.sourceInvocations.values, p.quality)).2 }) :=
    ⟨{ hc with source := nofun }, hp.setQuality hq⟩
  suffices hfold : ∀ l : List SourceInvocation, (∀ i ∈ l, i.Fits) → ∀ s, InRange s →
      InRange (l.foldl (Correlator.finishInvocation timestampNs) s) from
    hfold _ (fun i hi => hl i (mem_sortByKey.mp hi)) _ hstart
  intro l hl
  induction l with
  | nil => exact fun s hs => hs
  | cons i l ih =>
      intro s hs
      exact ih (fun j hj => hl j (List.mem_cons_of_mem _ hj)) _
        (InRange.finishInvocation hs (hl i (List.mem_cons_self ..)) hn)

theorem fits_finishActive {l : List ActiveInvocation} (hl : ∀ a ∈ l, a.Fits) (hp : p.Fits)
    (hn : timestampNs ≤ u64Max) : (l.foldl (finishActive timestampNs) p).Fits := by
  induction l generalizing p with
  | nil => exact hp
  | cons a l ih =>
      have ha := hl a (List.mem_cons_self ..)
      refine ih (fun b hb => hl b (List.mem_cons_of_mem _ hb)) ?_
      exact (hp.addInvocation (ha.record ha.tid (max_le hn ha.startNs) false false)).setQuality
        (counts_incomplete _ hp.quality)

theorem InRange.finish (h : InRange (c, p)) (hn : timestampNs ≤ u64Max) : (c.finish p timestampNs).Fits := by
  have hactive : ∀ d : Correlator, d.Fits → ∀ a ∈ d.active.values, a.Fits := by
    intro d hd a ha
    obtain ⟨tid, hl⟩ := Map.mem_values.mp ha
    exact hd.active tid a hl
  unfold Correlator.finish
  split
  rename_i d r hd
  have hdr : InRange (d, r) := by
    rw [← hd]
    split
    · exact h.finishSource hn
    · exact h
  exact fits_finishActive (hactive d hdr.1) hdr.2 hn

theorem collectEvents_fits (hp : p.Fits) {es : List CollectorEvent} (he : ∀ e ∈ es, e.Fits)
    (hn : timestampNs ≤ u64Max) : (collectEvents p es timestampNs).Fits := by
  have hempty : ({} : Correlator).Fits := ⟨by decide, by decide, nofun, nofun, nofun⟩
  have hstart : InRange ({}, p) := ⟨hempty, hp⟩
  exact InRange.finish (inRange_pushAll he hstart) hn

end SliceProfiler
