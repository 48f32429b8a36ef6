import SliceProfiler.Collector.Lemmas.Counters

/-!
# Sequences of events in another order

Two sequences with the same events and the same records, up to the order of samples, lead to the same
invocations and counters, and to the same samples in some order. The records are the same when the
sequences have the same skeleton, and when no identity has two entries or two returns.
-/

namespace SliceProfiler

open Lib

/-- A sample without its payload, and the other events as they are. -/
def CollectorEvent.skeleton : CollectorEvent → CollectorEvent
  | .sample id s => .sample id ⟨s.tid, s.timestampNs, 0, .onCpu, 0, []⟩
  | e => e

def SourceInvocation.bare (r : SourceInvocation) : SourceInvocation := { r with samples := [] }

variable {i : Nat} {es es₁ es₂ : List CollectorEvent} {t : Nat}

/-! ## Records -/

theorem onEntry_bare (r : SourceInvocation) (f tid ts : Nat) :
    (r.onEntry f tid ts).bare = (r.bare.onEntry f tid ts).bare := by
  unfold SourceInvocation.onEntry
  cases hs : r.sawEntry <;> simp [SourceInvocation.bare, hs]

theorem assemble_bare (found : Option SourceInvocation) (e : CollectorEvent) :
    (assemble i found e).map SourceInvocation.bare =
      (assemble i (found.map SourceInvocation.bare) e.skeleton).map SourceInvocation.bare := by
  cases eventFor i e with
  | other he =>
      have hsk : e.skeleton.invocationId ≠ some i := by cases e <;> exact he
      rw [assemble_of_ne he, assemble_of_ne hsk, Option.map_map]
      cases found <;> rfl
  | entry f tid ts =>
      simp only [assemble, CollectorEvent.skeleton, ↓reduceIte, Option.map_some]
      rw [onEntry_bare]
      cases found with
      | none => rw [onEntry_bare]; rfl
      | some r => simp only [Option.map_some, Option.getD_some]
  | ret f tid ts =>
      cases found <;> simp [assemble, CollectorEvent.skeleton, SourceInvocation.onReturn, SourceInvocation.bare]
  | sample s =>
      cases found <;> simp [assemble, CollectorEvent.skeleton, SourceInvocation.onSample, SourceInvocation.bare]

theorem skeleton_skeleton (e : CollectorEvent) : e.skeleton.skeleton = e.skeleton := by
  cases e <;> rfl

theorem recordOf_bare (i : Nat) (es : List CollectorEvent) :
    (recordOf i es).map SourceInvocation.bare =
      (recordOf i (es.map CollectorEvent.skeleton)).map SourceInvocation.bare := by
  induction es using List.reverseRecOn with
  | nil => rfl
  | append_singleton es e ih =>
      rw [List.map_append, List.map_singleton, recordOf_concat, recordOf_concat,
        assemble_bare (recordOf i es) e, assemble_bare (recordOf i (es.map _)) e.skeleton, ih,
        skeleton_skeleton]

/-- The two sequences hold the same events, and lead to the same records up to their samples. -/
structure SameRecords (es₁ es₂ : List CollectorEvent) : Prop where
  perm : es₁.Perm es₂
  record : ∀ i, (recordOf i es₁).map SourceInvocation.bare = (recordOf i es₂).map SourceInvocation.bare

theorem SameRecords.of_skeleton (hperm : es₁.Perm es₂)
    (hsk : es₁.map CollectorEvent.skeleton = es₂.map CollectorEvent.skeleton) : SameRecords es₁ es₂ where
  perm := hperm
  record i := by rw [recordOf_bare, hsk, ← recordOf_bare]

theorem marked_perm {vs₁ vs₂ : List (Nat × Nat)} (h : vs₁.Perm vs₂) (r : SourceInvocation) :
    r.marked vs₁ = r.marked vs₂ := by
  simp only [SourceInvocation.marked, h.any_eq]

theorem tally_foldl_perm (h : es₁.Perm es₂) (q : CaptureQuality) :
    es₁.foldl CollectorEvent.tally q = es₂.foldl CollectorEvent.tally q := by
  have : RightCommutative CollectorEvent.tally := by
    refine ⟨fun q a b => ?_⟩
    cases a <;> cases b <;> simp only [CollectorEvent.tally, CaptureQuality.generateEvent,
      CaptureQuality.generateSample, CaptureQuality.mismatch, CaptureQuality.dropEvents,
      CaptureQuality.dropSamples, saturatingAdd_right_comm]
  exact h.foldl_eq q

/-! ## Sources -/

theorem mem_sources_bare {b : SourceInvocation} : b ∈ (sources es).map SourceInvocation.bare ↔
    ∃ i r, (recordOf i es).map SourceInvocation.bare = some r ∧ r.marked (violationsOf es) = b := by
  simp only [List.mem_map, mem_sources, Option.map_eq_some_iff]
  constructor
  · rintro ⟨-, ⟨i, r, hr, rfl⟩, rfl⟩
    exact ⟨i, r.bare, ⟨r, hr, rfl⟩, rfl⟩
  · rintro ⟨i, -, ⟨r, hr, rfl⟩, rfl⟩
    exact ⟨_, ⟨i, r, hr, rfl⟩, rfl⟩

theorem violationsOf_perm (h : es₁.Perm es₂) : (violationsOf es₁).Perm (violationsOf es₂) := h.filterMap _

theorem sources_bare (h : SameRecords es₁ es₂) :
    (sources es₁).map SourceInvocation.bare = (sources es₂).map SourceInvocation.bare := by
  have hstrict : ∀ es, ((sources es).map SourceInvocation.bare).Pairwise fun r s => r.id < s.id := fun es =>
    List.pairwise_map.mpr (sources_strict es)
  refine @List.Perm.eq_of_pairwise _ (fun r s => r.id < s.id) _ _ ?_ (hstrict es₁) (hstrict es₂) ?_
  · exact fun a b _ _ hab hba => absurd hab hba.not_gt
  · rw [List.perm_ext_iff_of_nodup ((hstrict es₁).imp fun hlt he => by rw [he] at hlt; exact lt_irrefl _ hlt)
      ((hstrict es₂).imp fun hlt he => by rw [he] at hlt; exact lt_irrefl _ hlt)]
    intro b
    rw [mem_sources_bare, mem_sources_bare]
    simp only [h.record, marked_perm (violationsOf_perm h.perm)]

/-- A record with the samples of its identity. -/
def SourceInvocation.fill (es : List CollectorEvent) (r : SourceInvocation) : SourceInvocation :=
  { r with samples := samplesOf r.id es }

theorem sources_eq_fill (es : List CollectorEvent) :
    sources es = ((sources es).map SourceInvocation.bare).map (·.fill es) := by
  rw [List.map_map]
  refine (List.map_id _).symm.trans (List.map_congr_left fun r hr => ?_)
  obtain ⟨i, r', hr', rfl⟩ := mem_sources.mp hr
  have hd := recordOf_id hr'
  have hs : samplesOf (r'.marked (violationsOf es)).id es = r'.samples := by
    rw [show (r'.marked (violationsOf es)).id = i from hd.id, hd.samples]
  simp only [Function.comp_apply, SourceInvocation.fill, SourceInvocation.bare, hs, id_eq]
  rfl

/-! ## Reports, counters and samples -/

theorem reports_bare (es : List CollectorEvent) (t : Nat) :
    reports es t = ((sources es).map SourceInvocation.bare).filterMap (·.report t) := by
  rw [reports, List.filterMap_map]
  rfl

theorem suspicions_bare (es : List CollectorEvent) : suspicions es =
    ((violationsOf es).map fun v => ((sources es).map SourceInvocation.bare).countP (·.violatedAt v)).sum := by
  refine congrArg List.sum (List.map_congr_left fun v _ => ?_)
  rw [List.countP_map, sources, (sortByKey_perm _ _).countP_eq, List.countP_map]
  rfl

theorem mismatches_perm (inv : Invocation) {l₁ l₂ : List PendingSample} (h : l₁.Perm l₂) (q : CaptureQuality) :
    l₁.foldl (fun q s => if inv.keeps s then q else q.mismatch) q =
      l₂.foldl (fun q s => if inv.keeps s then q else q.mismatch) q := by
  have : RightCommutative fun (q : CaptureQuality) (s : PendingSample) =>
      if inv.keeps s then q else q.mismatch := by
    refine ⟨fun q a b => ?_⟩
    by_cases ha : inv.keeps a <;> by_cases hb : inv.keeps b <;> simp [ha, hb]
  exact h.foldl_eq q

theorem tally_perm {r : SourceInvocation} {l₁ l₂ : List PendingSample} (h : l₁.Perm l₂) (q : CaptureQuality) :
    ({ r with samples := l₁ } : SourceInvocation).tally t q =
      ({ r with samples := l₂ } : SourceInvocation).tally t q := by
  unfold SourceInvocation.tally
  have hr : ({ r with samples := l₁ } : SourceInvocation).report t =
      ({ r with samples := l₂ } : SourceInvocation).report t := rfl
  rw [hr]
  cases ({ r with samples := l₂ } : SourceInvocation).report t with
  | none => rfl
  | some inv => simp only [mismatches_perm inv h]

theorem kept_perm {r : SourceInvocation} {l₁ l₂ : List PendingSample} (h : l₁.Perm l₂) :
    (({ r with samples := l₁ } : SourceInvocation).kept t).Perm
      (({ r with samples := l₂ } : SourceInvocation).kept t) := by
  unfold SourceInvocation.kept
  have hr : ({ r with samples := l₁ } : SourceInvocation).report t =
      ({ r with samples := l₂ } : SourceInvocation).report t := rfl
  rw [hr]
  cases ({ r with samples := l₂ } : SourceInvocation).report t with
  | none => exact .nil
  | some inv =>
      simp only
      split
      · exact (h.filter _).map _
      · exact .nil

theorem samplesOf_perm (h : es₁.Perm es₂) (i : Nat) : (samplesOf i es₁).Perm (samplesOf i es₂) :=
  h.filterMap _

theorem suspicions_eq (h : SameRecords es₁ es₂) : suspicions es₁ = suspicions es₂ := by
  rw [suspicions_bare, suspicions_bare, sources_bare h]
  exact ((violationsOf_perm h.perm).map _).sum_eq

theorem bookOf_eq (h : SameRecords es₁ es₂) (p : Profile) (t : Nat) : bookOf p es₁ t = bookOf p es₂ t := by
  have hsrc := sources_bare h
  have hrep : (sources es₁).filterMap (·.report t) = (sources es₂).filterMap (·.report t) := by
    have := reports_bare es₁ t
    rwa [hsrc, ← reports_bare, reports, reports] at this
  have htally : ∀ q, (sources es₁).foldl (SourceInvocation.tally t) q =
      (sources es₂).foldl (SourceInvocation.tally t) q := by
    intro q
    have hfill : ∀ q (r : SourceInvocation), (r.fill es₁).tally t q = (r.fill es₂).tally t q := fun q r =>
      tally_perm (samplesOf_perm h.perm r.id) q
    rw [sources_eq_fill es₁, sources_eq_fill es₂, hsrc]
    simp only [List.foldl_map, hfill]
  simp only [bookOf, hrep, suspicions_eq h, htally, tally_foldl_perm h.perm]

theorem keptSamples_perm (h : SameRecords es₁ es₂) (t : Nat) : (keptSamples es₁ t).Perm (keptSamples es₂ t) := by
  have hfill : ∀ r : SourceInvocation, ((r.fill es₁).kept t).Perm ((r.fill es₂).kept t) := fun r =>
    kept_perm (samplesOf_perm h.perm r.id)
  rw [keptSamples, keptSamples, sources_eq_fill es₁, sources_eq_fill es₂, sources_bare h]
  simp only [List.flatMap_map]
  exact List.Perm.flatMap_left _ fun r _ => hfill _

/-! ## At most one entry and one return for each identity -/

/-- The events carry identities. Each identity has at most one entry and one return, its events are on one
thread, and its entry and return name one function. -/
structure OneEach (es : List CollectorEvent) : Prop where
  tagged : ∀ e ∈ es, e.Tagged
  entry : ∀ i, (entriesOf i es).length ≤ 1
  ret : ∀ i, (returnsOf i es).length ≤ 1
  tid : ∀ i, ∀ a ∈ tidsOf i es, ∀ b ∈ tidsOf i es, a = b
  function : ∀ i, ∀ e ∈ entriesOf i es, ∀ r ∈ returnsOf i es, e.functionId = r.functionId

theorem eq_of_perm_of_length_le {α : Type} {l₁ l₂ : List α} (h : l₁.Perm l₂) (hl : l₁.length ≤ 1) : l₁ = l₂ := by
  match l₁, hl with
  | [], _ => exact h.nil_eq
  | [a], _ => exact h.singleton_eq

theorem OneEach.perm (h : OneEach es₁) (hp : es₁.Perm es₂) : OneEach es₂ where
  tagged e he := h.tagged e (hp.mem_iff.mpr he)
  entry i := by rw [entriesOf, ← (hp.filterMap _).length_eq]; exact h.entry i
  ret i := by rw [returnsOf, ← (hp.filterMap _).length_eq]; exact h.ret i
  tid i a ha b hb := h.tid i a ((hp.filterMap _).mem_iff.mpr ha) b ((hp.filterMap _).mem_iff.mpr hb)
  function i e he r hr := h.function i e ((hp.filterMap _).mem_iff.mpr he) r ((hp.filterMap _).mem_iff.mpr hr)

theorem OneEach.returnsAgree (h : OneEach es) (i : Nat) : ReturnsAgree i es := by
  cases hr : (returnsOf i es).head? with
  | none =>
      have hnil := List.head?_eq_none_iff.mp hr
      intro pre e post hes r hret
      have : r ∈ returnsOf i es := List.mem_filterMap.mpr ⟨e, by rw [hes]; simp, hret⟩
      rw [hnil] at this
      cases this
  | some r =>
      have hrm : r ∈ returnsOf i es := List.mem_of_mem_head? hr
      have hone : ∀ b ∈ returnsOf i es, b = r := by
        intro b hb
        obtain ⟨c, hc⟩ := List.length_eq_one_iff.mp ((h.ret i).antisymm (List.length_pos_of_mem hrm))
        rw [hc, List.mem_singleton] at hb hrm
        rw [hb, hrm]
      have htid : r.tid ∈ tidsOf i es := by
        obtain ⟨e, he, hb⟩ := List.mem_filterMap.mp hrm
        exact List.mem_filterMap.mpr ⟨e, he, tidOf_of_return hb⟩
      apply returnsAgree_of_uniform r.functionId r.tid
      · rintro e he b (hb | hb)
        · exact h.function i b (List.mem_filterMap.mpr ⟨e, he, hb⟩) r hrm
        · rw [hone b (List.mem_filterMap.mpr ⟨e, he, hb⟩)]
      · intro e he n hn
        exact h.tid i n (List.mem_filterMap.mpr ⟨e, he, hn⟩) r.tid htid

theorem OneEach.regular_iff (h : OneEach es) (i : Nat) : Regular i es ↔
    ∀ e ∈ entriesOf i es, ∀ r ∈ returnsOf i es, e.timestampNs ≤ r.timestampNs := by
  rw [SliceProfiler.regular_iff]
  simp only [h.entry, h.ret, h.returnsAgree, true_and]

theorem mem_tidsOf_of_carriedTid {tid : Nat} (h : carriedTid i es = some tid) : tid ∈ tidsOf i es := by
  simp only [carriedTid, Option.or_eq_some_iff, Option.map_eq_some_iff] at h
  rcases h with ⟨b, hb, rfl⟩ | ⟨-, h⟩
  · obtain ⟨e, he, heb⟩ := List.mem_filterMap.mp (List.mem_of_mem_head? hb)
    exact List.mem_filterMap.mpr ⟨e, he, by simp [CollectorEvent.tidOf, heb]⟩
  · exact List.mem_of_mem_head? h

theorem Describes.bare_eq {r₁ r₂ : SourceInvocation} (d₁ : Describes i es₁ r₁) (d₂ : Describes i es₂ r₂)
    (h : OneEach es₁) (hp : es₁.Perm es₂) : r₁.bare = r₂.bare := by
  have hE : entriesOf i es₁ = entriesOf i es₂ := eq_of_perm_of_length_le (hp.filterMap _) (h.entry i)
  have hR : returnsOf i es₁ = returnsOf i es₂ := eq_of_perm_of_length_le (hp.filterMap _) (h.ret i)
  have hf : r₁.functionId = r₂.functionId := by
    rw [d₁.functionId, d₂.functionId, carriedFunction, carriedFunction, hE, hR]
  have ht : r₁.tid = r₂.tid := by
    apply h.tid i _ (mem_tidsOf_of_carriedTid d₁.tid)
    rw [tidsOf, (hp.filterMap _).mem_iff]
    exact mem_tidsOf_of_carriedTid d₂.tid
  have hv : r₁.valid = r₂.valid := by
    rw [Bool.eq_iff_iff, d₁.valid, d₂.valid, h.regular_iff, (h.perm hp).regular_iff, hE, hR]
  have he : r₁.sawEntry = r₂.sawEntry := by rw [Bool.eq_iff_iff, d₁.sawEntry, d₂.sawEntry, hE]
  have hr : r₁.sawReturn = r₂.sawReturn := by rw [Bool.eq_iff_iff, d₁.sawReturn, d₂.sawReturn, hR]
  simp only [SourceInvocation.bare, d₁.id, d₂.id, hf, ht, d₁.startNs, d₂.startNs, d₁.endNs, d₂.endNs, hE, hR,
    he, hr, hv]

theorem SameRecords.of_oneEach (h : OneEach es₁) (hp : es₁.Perm es₂) : SameRecords es₁ es₂ where
  perm := hp
  record i := by
    have hnone : carriedTid i es₁ = none ↔ carriedTid i es₂ = none := by
      simp only [carriedTid_eq_none, hp.mem_iff]
    rcases recordOf_spec i es₁ with ⟨h₁, hn₁⟩ | ⟨r₁, h₁, d₁⟩
    · rcases recordOf_spec i es₂ with ⟨h₂, -⟩ | ⟨r₂, -, d₂⟩
      · rw [h₁, h₂]
      · have htid := d₂.tid
        rw [hnone.mp hn₁] at htid
        cases htid
    · rcases recordOf_spec i es₂ with ⟨-, hn₂⟩ | ⟨r₂, h₂, d₂⟩
      · have htid := d₁.tid
        rw [hnone.mpr hn₂] at htid
        cases htid
      · rw [h₁, h₂, Option.map_some, Option.map_some, d₁.bare_eq d₂ h hp]

end SliceProfiler
