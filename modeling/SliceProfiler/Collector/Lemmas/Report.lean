import SliceProfiler.Collector.Lemmas.Collect

/-!
# What the reports say
-/

namespace SliceProfiler

open Lib

variable {i : Nat} {es : List CollectorEvent} {t : Nat}

theorem returnsAgree_concat {e : CollectorEvent} :
    ReturnsAgree i (es ++ [e]) ↔ ReturnsAgree i es ∧ ∀ r ∈ e.returnOf i, ReturnAgrees i es r := each_concat

/-- The events of an identity are all accepted when it has at most one entry and at most one return, in
this order, and the return agrees with what it found. -/
theorem regular_iff : Regular i es ↔ (entriesOf i es).length ≤ 1 ∧ (returnsOf i es).length ≤ 1 ∧
    ReturnsAgree i es ∧ ∀ e ∈ entriesOf i es, ∀ r ∈ returnsOf i es, e.timestampNs ≤ r.timestampNs := by
  induction es using List.reverseRecOn with
  | nil => simp [Regular, ReturnsAgree, entriesOf, returnsOf]
  | append_singleton es e ih =>
      rw [regular_concat, ih, returnsAgree_concat, entriesOf_concat, returnsOf_concat]
      cases eventFor i e with
      | other he =>
          obtain ⟨hb, hr, -⟩ := tidOf_eq_none.mp (tidOf_of_ne he)
          simp [hb, hr, accepted_other hb hr]
      | sample s => simp [CollectorEvent.entryOf, CollectorEvent.returnOf, accepted_sample]
      | entry f tid ts =>
          rw [accepted_entry]
          rcases entriesOf i es with _ | ⟨b, l⟩ <;> rcases returnsOf i es with _ | ⟨r, _ | ⟨r', l'⟩⟩ <;>
            simp [CollectorEvent.entryOf, CollectorEvent.returnOf]
      | ret f tid ts =>
          rw [accepted_ret]
          rcases entriesOf i es with _ | ⟨b, _ | ⟨b', l⟩⟩ <;> rcases returnsOf i es with _ | ⟨r, l'⟩ <;>
            simp [CollectorEvent.entryOf, CollectorEvent.returnOf, and_assoc]

theorem tidOf_of_return {e : CollectorEvent} {b : Boundary} (h : e.returnOf i = some b) :
    e.tidOf i = some b.tid := by
  cases eventFor i e with
  | ret f tid ts =>
      simp only [CollectorEvent.returnOf, ↓reduceIte, Option.some.injEq] at h
      subst h
      simp [CollectorEvent.tidOf, CollectorEvent.entryOf, CollectorEvent.returnOf]
  | entry | sample => cases h
  | other he =>
      rw [(tidOf_eq_none.mp (tidOf_of_ne he)).2.1] at h
      cases h

/-- The returns agree when the events of the identity name one function and one thread. -/
theorem returnsAgree_of_uniform (f tid : Nat)
    (hf : ∀ e ∈ es, ∀ b, e.entryOf i = some b ∨ e.returnOf i = some b → b.functionId = f)
    (ht : ∀ e ∈ es, ∀ n, e.tidOf i = some n → n = tid) : ReturnsAgree i es := by
  intro pre e post hes r hr
  have he : e ∈ es := by rw [hes]; simp
  have hpre : ∀ x ∈ pre, x ∈ es := by
    intro x hx
    rw [hes]; exact List.mem_append_left _ hx
  constructor
  · intro g hg
    rw [hf e he r (.inr hr)]
    simp only [carriedFunction, Option.mem_def, Option.or_eq_some_iff, Option.map_eq_some_iff] at hg
    rcases hg with ⟨b, hb, rfl⟩ | ⟨-, b, hb, rfl⟩
    · obtain ⟨x, hx, hxb⟩ := List.mem_filterMap.mp (List.mem_of_mem_head? hb)
      exact hf x (hpre x hx) b (.inl hxb)
    · obtain ⟨x, hx, hxb⟩ := List.mem_filterMap.mp (List.mem_of_mem_head? hb)
      exact hf x (hpre x hx) b (.inr hxb)
  · intro n hn
    rw [ht e he r.tid (tidOf_of_return hr)]
    simp only [carriedTid, Option.mem_def, Option.or_eq_some_iff, Option.map_eq_some_iff] at hn
    rcases hn with ⟨b, hb, rfl⟩ | ⟨-, hn⟩
    · obtain ⟨x, hx, hxb⟩ := List.mem_filterMap.mp (List.mem_of_mem_head? hb)
      exact ht x (hpre x hx) b.tid (by simp [CollectorEvent.tidOf, hxb])
    · obtain ⟨x, hx, hxn⟩ := List.mem_filterMap.mp (List.mem_of_mem_head? hn)
      exact ht x (hpre x hx) n hxn

/-! ## The report of an identity -/

variable {r : SourceInvocation} {e : Boundary} {inv : Invocation}

theorem Reported.unique {inv' : Invocation} (h : Reported i es t e inv) (h' : Reported i es t e inv') :
    inv = inv' := by
  obtain ⟨_, _, _, _, _, _, _, _⟩ := inv
  obtain ⟨_, _, _, _, _, _, _, _⟩ := inv'
  have hc := Bool.eq_iff_iff.mpr (h.complete.trans h'.complete.symm)
  have hv := Bool.eq_iff_iff.mpr (h.valid.trans h'.valid.symm)
  have hid := h.id.trans h'.id.symm
  have hf := h.functionId.trans h'.functionId.symm
  have hp := h.parentId.trans h'.parentId.symm
  have ht := h.tid.trans h'.tid.symm
  have hs := h.startNs.trans h'.startNs.symm
  have he := h.endNs.trans h'.endNs.symm
  simp only at hc hv hid hf hp ht hs he
  subst hc hv hid hf hp ht hs he
  rfl

theorem Describes.tid_eq (hd : Describes i es r) (he : (entriesOf i es).head? = some e) : r.tid = e.tid := by
  have := hd.tid
  rw [carriedTid, he] at this
  exact (Option.some.inj this).symm

/-- The record is valid at the end exactly when it is retained. -/
theorem marked_valid_iff (hd : Describes i es r) (he : (entriesOf i es).head? = some e) :
    (r.marked (violationsOf es)).valid = true ∧ returnsOf i es ≠ [] ↔ ∃ b, Retained i es e b := by
  have htid := hd.tid_eq he
  have hv : (r.marked (violationsOf es)).valid = true ↔
      Regular i es ∧ ∀ v ∈ violationsOf es, ¬ r.violatedAt v = true := by
    simp [SourceInvocation.marked, hd.valid]
  rw [hv, regular_iff]
  constructor
  · rintro ⟨⟨⟨hE, hR, hA, hO⟩, hV⟩, hne⟩
    obtain ⟨b, hb⟩ := List.length_eq_one_iff.mp (hR.antisymm (List.length_pos_iff.mpr hne))
    have hE' : entriesOf i es = [e] := by
      cases h : entriesOf i es with
      | nil => rw [h] at he; cases he
      | cons e' l =>
          rw [h] at he hE
          cases he
          rw [List.length_eq_zero_iff.mp (Nat.le_zero.mp (Nat.le_of_succ_le_succ hE))]
    refine ⟨b, hE', hb, hA, hO e (by simp [hE']) b (by simp [hb]), fun v hm hc => hV v hm ?_⟩
    simp [SourceInvocation.violatedAt, hd.startNs, hd.endNs, hE', hb, htid, hc]
  · rintro ⟨b, hr⟩
    refine ⟨⟨⟨by simp [hr.entry], by simp [hr.ret], hr.agree, by simp [hr.entry, hr.ret, hr.ordered]⟩, ?_⟩,
      by simp [hr.ret]⟩
    intro v hm hc
    simp only [SourceInvocation.violatedAt, hd.startNs, hd.endNs, hr.entry, hr.ret, htid, List.head?_cons,
      List.getLast?_singleton, Option.map_some, Option.any_some, Option.all_some, Bool.and_eq_true,
      beq_iff_eq, decide_eq_true_eq] at hc
    exact hr.clear v hm ⟨hc.1.symm, hc.2⟩

theorem Describes.report (hd : Describes i es r) (he : (entriesOf i es).head? = some e) :
    ∃ inv, (r.marked (violationsOf es)).report t = some inv ∧ Reported i es t e inv := by
  have hne : entriesOf i es ≠ [] := by rintro h; rw [h] at he; cases he
  have hf : (r.marked (violationsOf es)).functionId = some e.functionId := by
    refine hd.functionId.trans ?_
    rw [carriedFunction, he]; rfl
  have hs : (r.marked (violationsOf es)).startNs = some e.timestampNs := by
    refine hd.startNs.trans ?_
    rw [he]; rfl
  have hsaw : r.sawEntry = true := hd.sawEntry.mpr hne
  refine ⟨_, by simp only [SourceInvocation.report, hf, hs]; rfl, ?_⟩
  refine ⟨hd.id, rfl, rfl, hd.tid_eq he, rfl, ?_, ?_, ?_⟩
  · simp only [SourceInvocation.marked, hd.endNs]
  · simpa [SourceInvocation.marked, hsaw] using hd.sawReturn
  · rw [← marked_valid_iff hd he]
    constructor
    · intro h
      simp only [Bool.and_eq_true] at h
      exact ⟨h.1.1, hd.sawReturn.mp h.1.2.2⟩
    · rintro ⟨hv, hret⟩
      obtain ⟨b, hb⟩ := (marked_valid_iff hd he).mp ⟨hv, hret⟩
      simp only [Bool.and_eq_true, decide_eq_true_eq]
      refine ⟨⟨hv, hsaw, hd.sawReturn.mpr hret⟩, ?_⟩
      simp only [SourceInvocation.marked, hd.endNs, hb.ret, List.getLast?_singleton, Option.map_some,
        Option.getD_some]
      exact hb.ordered

theorem Describes.report_eq_none (hd : Describes i es r) (he : entriesOf i es = []) :
    (r.marked (violationsOf es)).report t = none := by
  have hs : (r.marked (violationsOf es)).startNs = none := by
    refine hd.startNs.trans ?_
    rw [he]; rfl
  simp only [SourceInvocation.report, hs]
  cases (r.marked (violationsOf es)).functionId <;> rfl

theorem recordOf_isSome (he : (entriesOf i es).head? = some e) : ∃ r, recordOf i es = some r := by
  rcases recordOf_spec i es with ⟨-, hn⟩ | ⟨r, hr, -⟩
  · rw [carriedTid, he] at hn; cases hn
  · exact ⟨r, hr⟩

/-! ## All reports -/

def reports (es : List CollectorEvent) (t : Nat) : List Invocation := (sources es).filterMap (·.report t)

theorem mem_reports : inv ∈ reports es t ↔
    ∃ e, (entriesOf inv.id es).head? = some e ∧ Reported inv.id es t e inv := by
  simp only [reports, List.mem_filterMap, mem_sources]
  constructor
  · rintro ⟨-, ⟨i, r, hr, rfl⟩, hrep⟩
    have hd := recordOf_id hr
    cases he : (entriesOf i es).head? with
    | none => rw [hd.report_eq_none (List.head?_eq_none_iff.mp he)] at hrep; cases hrep
    | some e =>
        obtain ⟨inv', hrep', h⟩ := hd.report (t := t) he
        rw [hrep] at hrep'
        cases hrep'
        rw [h.id]
        exact ⟨e, he, h⟩
  · rintro ⟨e, he, h⟩
    obtain ⟨r, hr⟩ := recordOf_isSome he
    obtain ⟨inv', hrep, h'⟩ := (recordOf_id hr).report (t := t) he
    exact ⟨_, ⟨inv.id, r, hr, rfl⟩, by rw [hrep, h.unique h']⟩

theorem reports_strict (es : List CollectorEvent) (t : Nat) :
    (reports es t).Pairwise fun a b => a.id < b.id := by
  have hid : ∀ r : SourceInvocation, ∀ inv ∈ r.report t, inv.id = r.id := by
    intro r inv h
    unfold SourceInvocation.report at h
    split at h <;> cases h
    rfl
  exact (sources_strict es).filterMap _ fun r r' hlt a ha b hb => by
    rw [hid r a ha, hid r' b hb]; exact hlt

theorem exists_report (he : (entriesOf i es).head? = some e) :
    ∃ inv ∈ reports es t, Reported i es t e inv := by
  obtain ⟨r, hr⟩ := recordOf_isSome he
  obtain ⟨inv, hrep, h⟩ := (recordOf_id hr).report (t := t) he
  exact ⟨inv, List.mem_filterMap.mpr ⟨_, mem_sources.mpr ⟨i, r, hr, rfl⟩, hrep⟩, h⟩

theorem exists_report_iff : (∃ inv ∈ reports es t, inv.id = i) ↔ entriesOf i es ≠ [] := by
  constructor
  · rintro ⟨inv, hm, rfl⟩ hnil
    obtain ⟨e, hhead, -⟩ := mem_reports.mp hm
    rw [hnil] at hhead
    cases hhead
  · intro hne
    obtain ⟨e, l, hl⟩ := List.exists_cons_of_ne_nil hne
    obtain ⟨inv, hm, hrep⟩ := exists_report (t := t) (i := i) (e := e) (by rw [hl]; rfl)
    exact ⟨inv, hm, hrep.id⟩

theorem bounds_of_good (hm : inv ∈ reports es t) (hg : inv.Good) :
    ∃ e r, Retained inv.id es e r ∧ inv.tid = e.tid ∧ inv.startNs = e.timestampNs ∧ inv.endNs = r.timestampNs := by
  obtain ⟨e, -, hrep⟩ := mem_reports.mp hm
  obtain ⟨r, hr⟩ := hrep.valid.mp hg.2
  exact ⟨e, r, hr, hrep.tid, hrep.startNs, by rw [hrep.endNs, hr.ret]; rfl⟩

theorem Retained.report {r : Boundary} (h : Retained i es e r) : ∃ inv ∈ reports es t, inv.Good ∧ inv.id = i ∧
    inv.tid = e.tid ∧ inv.startNs = e.timestampNs ∧ inv.endNs = r.timestampNs := by
  obtain ⟨inv, hm, hrep⟩ := exists_report (t := t) (by rw [h.entry]; rfl)
  exact ⟨inv, hm, ⟨hrep.complete.mpr (by simp [h.ret]), hrep.valid.mpr ⟨r, h⟩⟩, hrep.id, hrep.tid, hrep.startNs,
    by rw [hrep.endNs, h.ret]; rfl⟩

/-- The invocations and the counters of a sequence of events with identities, whatever its samples are. -/
theorem collectEvents_book (he : ∀ e ∈ es, e.Tagged) (p : Profile) (t : Nat) :
    (collectEvents p es t).invocations = p.invocations ++ reports es t ∧
      (collectEvents p es t).quality = (bookOf p es t).quality := by
  obtain ⟨c, -, -, heq⟩ := collectEvents_eq he p t
  obtain ⟨hi, hq⟩ := appendAll_book (c, bookOf p es t) (keptSamples es t)
  rw [heq, hi, hq]
  exact ⟨rfl, rfl⟩

theorem collectEvents_reports (he : ∀ e ∈ es, e.Tagged) {p : Profile} (hi : p.invocations = []) (t : Nat) :
    (collectEvents p es t).invocations = reports es t := by
  rw [(collectEvents_book he p t).1, hi, List.nil_append]

/-! ## The kept samples -/

theorem mem_kept {x : Nat × PendingSample} (h : r.report t = some inv) : x ∈ r.kept t ↔
    inv.valid = true ∧ x.1 = r.id ∧ x.2 ∈ r.samples ∧
      inv.startNs ≤ x.2.timestampNs ∧ x.2.timestampNs ≤ inv.endNs := by
  obtain ⟨id, s⟩ := x
  have hk : ∀ s, inv.keeps s = true ↔ inv.startNs ≤ s.timestampNs ∧ s.timestampNs ≤ inv.endNs := by
    simp [Invocation.keeps]
  cases hv : inv.valid with
  | false => simp [SourceInvocation.kept, h, hv]
  | true =>
      simp only [SourceInvocation.kept, h, hv, ↓reduceIte, List.mem_map, List.mem_filter, hk, Prod.mk.injEq,
        true_and]
      constructor
      · rintro ⟨s', hs', he, rfl⟩; exact ⟨he.symm, hs'⟩
      · rintro ⟨he, hs⟩; exact ⟨s, hs, he.symm, rfl⟩

theorem mem_keptSamples {x : Nat × PendingSample} : x ∈ keptSamples es t ↔
    ∃ e b, Retained x.1 es e b ∧ x.2 ∈ samplesOf x.1 es ∧
      e.timestampNs ≤ x.2.timestampNs ∧ x.2.timestampNs ≤ b.timestampNs := by
  simp only [keptSamples, List.mem_flatMap, mem_sources]
  constructor
  · rintro ⟨-, ⟨i, r, hr, rfl⟩, hx⟩
    have hd := recordOf_id hr
    cases he : (entriesOf i es).head? with
    | none =>
        rw [SourceInvocation.kept, hd.report_eq_none (List.head?_eq_none_iff.mp he)] at hx
        cases hx
    | some e =>
        obtain ⟨inv, hrep, h⟩ := hd.report (t := t) he
        obtain ⟨hv, hid, hs, hstart, hend⟩ := (mem_kept hrep).mp hx
        obtain ⟨b, hb⟩ := h.valid.mp hv
        have hid' : x.1 = i := hid.trans hd.id
        have hs' : x.2 ∈ samplesOf i es := by rw [← hd.samples]; exact hs
        rw [h.startNs] at hstart
        simp only [h.endNs, hb.ret, List.getLast?_singleton, Option.map_some, Option.getD_some] at hend
        exact ⟨e, b, hid' ▸ hb, hid' ▸ hs', hstart, hend⟩
  · rintro ⟨e, b, hb, hs, hstart, hend⟩
    have he : (entriesOf x.1 es).head? = some e := by rw [hb.entry]; rfl
    obtain ⟨r, hr⟩ := recordOf_isSome he
    have hd := recordOf_id hr
    obtain ⟨inv, hrep, h⟩ := hd.report (t := t) he
    refine ⟨_, ⟨x.1, r, hr, rfl⟩, (mem_kept hrep).mpr ⟨h.valid.mpr ⟨b, hb⟩, hd.id.symm, ?_, ?_, ?_⟩⟩
    · rw [← hd.samples] at hs; exact hs
    · rw [h.startNs]; exact hstart
    · simp only [h.endNs, hb.ret, List.getLast?_singleton, Option.map_some, Option.getD_some]
      exact hend

end SliceProfiler
