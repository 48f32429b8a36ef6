import SliceProfiler.Collector.Lemmas.Push
import SliceProfiler.Collector.Lemmas.Stacks

/-!
# The end of the capture

The profile after `finish`: the reports of the records by increasing identity, and the samples that the
valid reports keep.
-/

namespace SliceProfiler

open Lib

/-! ## One record -/

/-- The invocation that the record of an identity becomes. -/
def SourceInvocation.report (timestampNs : Nat) (r : SourceInvocation) : Option Invocation :=
  match r.functionId, r.startNs with
  | some functionId, some startNs =>
      let endNs := r.endNs.getD (max timestampNs startNs)
      let complete := r.sawEntry && r.sawReturn
      some ⟨r.id, functionId, none, r.tid, startNs, endNs, complete,
        r.valid && complete && decide (endNs ≥ startNs)⟩
  | _, _ => none

def Invocation.keeps (i : Invocation) (s : PendingSample) : Bool :=
  !decide (s.timestampNs < i.startNs ∨ s.timestampNs > i.endNs)

/-- The samples of the record that reach the profile. -/
def SourceInvocation.kept (timestampNs : Nat) (r : SourceInvocation) : List (Nat × PendingSample) :=
  match r.report timestampNs with
  | some i => if i.valid then (r.samples.filter i.keeps).map fun s => (r.id, s) else []
  | none => []

/-- The counters after the record. -/
def SourceInvocation.tally (timestampNs : Nat) (q : CaptureQuality) (r : SourceInvocation) : CaptureQuality :=
  match r.report timestampNs with
  | some i =>
      if i.valid then r.samples.foldl (fun q s => if i.keeps s then q else q.mismatch) q.complete
      else if i.complete then q.incomplete.mismatch else q.incomplete
  | none => q

/-- The profile with other invocations and counters. -/
def Profile.setBook (invocations : List Invocation) (quality : CaptureQuality) (p : Profile) : Profile :=
  { p with invocations, quality }

variable {c : Correlator} {p : Profile} {t : Nat}

theorem appendSample_setBook (is : List Invocation) (q : CaptureQuality) (id : Nat) (s : PendingSample) :
    c.appendSample (p.setBook is q) id s =
      ((c.appendSample p id s).1, (c.appendSample p id s).2.setBook is q) := by
  simp only [Correlator.appendSample, Correlator.internStack, Profile.setBook]
  cases c.stackIds.lookup s.frames <;> rfl

theorem appendAll_setBook (is : List Invocation) (q : CaptureQuality) (s : Correlator × Profile)
    (l : List (Nat × PendingSample)) :
    appendAll (s.1, s.2.setBook is q) l = ((appendAll s l).1, (appendAll s l).2.setBook is q) := by
  induction l generalizing s with
  | nil => rfl
  | cons x l ih =>
      simp only [appendAll, List.foldl_cons] at ih ⊢
      rw [appendSample_setBook]
      exact ih _

theorem appendSample_book (id : Nat) (s : PendingSample) :
    (c.appendSample p id s).2.invocations = p.invocations ∧ (c.appendSample p id s).2.quality = p.quality := by
  simp only [Correlator.appendSample, Correlator.internStack]
  cases c.stackIds.lookup s.frames <;> exact ⟨rfl, rfl⟩

/-- The loop over the samples of an invocation: the counters, and then the samples that it keeps. -/
theorem foldl_finishSample (i : Invocation) (samples : List PendingSample) (s : Correlator × Profile) :
    samples.foldl (Correlator.finishSample i.id i.startNs i.endNs) s =
      appendAll (s.1, s.2.setBook s.2.invocations
          (samples.foldl (fun q x => if i.keeps x then q else q.mismatch) s.2.quality))
        ((samples.filter i.keeps).map fun x => (i.id, x)) := by
  induction samples generalizing s with
  | nil => rfl
  | cons x samples ih =>
      rw [List.foldl_cons, ih, Correlator.finishSample]
      by_cases hx : x.timestampNs < i.startNs ∨ x.timestampNs > i.endNs
      · have hk : i.keeps x = false := by simp [Invocation.keeps, hx]
        simp only [hx, ↓reduceIte, List.foldl_cons, List.filter_cons, hk, Bool.false_eq_true]
        rfl
      · have hk : i.keeps x = true := by simp [Invocation.keeps, hx]
        simp only [hx, ↓reduceIte, List.foldl_cons, List.filter_cons, hk, List.map_cons, appendAll,
          appendSample_setBook, appendSample_book]

theorem finishInvocation_eq (r : SourceInvocation) (s : Correlator × Profile) :
    Correlator.finishInvocation t s r =
      appendAll (s.1, s.2.setBook (s.2.invocations ++ (r.report t).toList) (r.tally t s.2.quality))
        (r.kept t) := by
  cases hf : r.functionId with
  | none => simp only [Correlator.finishInvocation, SourceInvocation.kept, SourceInvocation.tally,
      SourceInvocation.report, hf, Option.toList_none, List.append_nil]; rfl
  | some f =>
      cases hs : r.startNs with
      | none => simp only [Correlator.finishInvocation, SourceInvocation.kept, SourceInvocation.tally,
          SourceInvocation.report, hf, hs, Option.toList_none, List.append_nil]; rfl
      | some start =>
          simp only [Correlator.finishInvocation, SourceInvocation.kept, SourceInvocation.tally,
            SourceInvocation.report, hf, hs, Option.toList_some]
          split
          · exact foldl_finishSample ⟨r.id, f, none, r.tid, start, _, _, _⟩ _ _
          · rfl

theorem appendAll_append (s : Correlator × Profile) (l l' : List (Nat × PendingSample)) :
    appendAll s (l ++ l') = appendAll (appendAll s l) l' := List.foldl_append

theorem appendAll_book (s : Correlator × Profile) (l : List (Nat × PendingSample)) :
    (appendAll s l).2.invocations = s.2.invocations ∧ (appendAll s l).2.quality = s.2.quality := by
  induction l generalizing s with
  | nil => exact ⟨rfl, rfl⟩
  | cons x l ih =>
      obtain ⟨hi, hq⟩ := ih (s.1.appendSample s.2 x.1 x.2)
      obtain ⟨hi', hq'⟩ := appendSample_book (c := s.1) (p := s.2) x.1 x.2
      exact ⟨hi.trans hi', hq.trans hq'⟩

/-- The loop over the records: the reports and the counters, and then the samples. -/
theorem foldl_finishInvocation (l : List SourceInvocation) (s : Correlator × Profile) :
    l.foldl (Correlator.finishInvocation t) s =
      appendAll (s.1, s.2.setBook (s.2.invocations ++ l.filterMap (·.report t))
          (l.foldl (SourceInvocation.tally t) s.2.quality))
        (l.flatMap (·.kept t)) := by
  induction l generalizing s with
  | nil => simp only [List.foldl_nil, List.filterMap_nil, List.append_nil, List.flatMap_nil]; rfl
  | cons r l ih =>
      have hset := appendAll_setBook (s.2.invocations ++ (r :: l).filterMap (·.report t))
        ((r :: l).foldl (SourceInvocation.tally t) s.2.quality)
        (s.1, s.2.setBook (s.2.invocations ++ (r.report t).toList) (r.tally t s.2.quality)) (r.kept t)
      obtain ⟨hi, hq⟩ := appendAll_book
        (s.1, s.2.setBook (s.2.invocations ++ (r.report t).toList) (r.tally t s.2.quality)) (r.kept t)
      rw [List.foldl_cons, ih, finishInvocation_eq, List.flatMap_cons, appendAll_append, hi, hq]
      refine congrArg (fun s => appendAll s (l.flatMap (·.kept t))) (.trans ?_ hset.symm)
      cases hr : r.report t <;> simp [Profile.setBook, hr]

/-! ## Violations -/

/-- The record after the violations of the capture. -/
def SourceInvocation.marked (vs : List (Nat × Nat)) (r : SourceInvocation) : SourceInvocation :=
  { r with valid := r.valid && !vs.any r.violatedAt }

theorem foldl_suspect (v : Nat × Nat) (rs : List SourceInvocation) (q : CaptureQuality) :
    rs.foldl (fun q r => if r.violatedAt v then q.suspect else q) q =
      CaptureQuality.suspect^[rs.countP (·.violatedAt v)] q := by
  induction rs generalizing q with
  | nil => rfl
  | cons r rs ih =>
      cases hv : r.violatedAt v <;> simp [ih, hv]

theorem foldl_markViolation (vs : List (Nat × Nat)) (rs : List SourceInvocation) (q : CaptureQuality) :
    vs.foldl markViolation (rs, q) = (rs.map (·.marked vs),
      CaptureQuality.suspect^[(vs.map fun v => rs.countP (·.violatedAt v)).sum] q) := by
  induction vs generalizing rs q with
  | nil => simp [SourceInvocation.marked]
  | cons v vs ih =>
      have hcount : ∀ w, (rs.map fun r => if r.violatedAt v then { r with valid := false } else r).countP
          (·.violatedAt w) = rs.countP (·.violatedAt w) := by
        intro w
        rw [List.countP_map]
        refine List.countP_congr fun r _ => ?_
        simp only [Function.comp_apply]
        split <;> rfl
      have hmark : ∀ r : SourceInvocation, (if r.violatedAt v then { r with valid := false } else r).marked vs =
          r.marked (v :: vs) := by
        intro r
        cases hv : r.violatedAt v <;> simp [SourceInvocation.marked, hv]
      rw [List.foldl_cons, markViolation, ih, foldl_suspect, ← Function.iterate_add_apply, List.map_map]
      simp only [hcount, List.map_cons, List.sum_cons, Function.comp_def, hmark, Nat.add_comm]

end SliceProfiler
