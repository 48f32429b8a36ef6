import SliceProfiler.Collector.Correlator
import SliceProfiler.Core.Lemmas.Query

/-!
# The table of stacks

Two samples get the same stack id exactly when they have the same frames, as long as the ids do not
run out.
-/

namespace SliceProfiler

open Lib

/-- The stacks of the profile carry the ids `1, 2, …`, and the correlator knows all of them. -/
structure StackTable (F : Finset (List Frame)) (c : Correlator) (p : Profile) : Prop where
  next : c.nextStackId = min (p.stacks.length + 1) u32Max
  ids : p.stacks.map (·.id) = List.range' 1 p.stacks.length
  lookup : ∀ frames id, c.stackIds.lookup frames = some id ↔ (⟨id, frames⟩ : Stack) ∈ p.stacks
  distinct : (p.stacks.map (·.frames)).Nodup
  bounded : ∀ k ∈ p.stacks, k.frames ∈ F
  known : ∀ s ∈ p.samples, ∃ k ∈ p.stacks, k.id = s.stackId

variable {F : Finset (List Frame)} {c : Correlator} {p : Profile}

theorem StackTable.idsNodup (h : StackTable F c p) : (p.stacks.map (·.id)).Nodup := by
  rw [h.ids]; exact List.nodup_range'

theorem StackTable.knownStacks (h : StackTable F c p) : p.KnownStacks := ⟨h.idsNodup, h.known⟩

theorem StackTable.initial (hc : c.stackIds = ∅) (hn : c.nextStackId = 1) (hk : p.stacks = [])
    (hs : p.samples = []) : StackTable F c p :=
  ⟨by simp [hn, hk, u32Max], by simp [hk], by simp [hc, hk], by simp [hk], by simp [hk], by simp [hs]⟩

/-- The table reads nothing else of the correlator and of the profile. -/
theorem StackTable.keep {c' : Correlator} {p' : Profile} (h : StackTable F c p)
    (hn : c'.nextStackId = c.nextStackId) (hi : c'.stackIds = c.stackIds) (hk : p'.stacks = p.stacks)
    (hs : p'.samples = p.samples) : StackTable F c' p' := by
  constructor
  · rw [hn, hk]; exact h.next
  · rw [hk]; exact h.ids
  · rw [hi, hk]; exact h.lookup
  · rw [hk]; exact h.distinct
  · rw [hk]; exact h.bounded
  · rw [hk, hs]; exact h.known

/-- A stack that is not in the table leaves room for its id. -/
theorem StackTable.length_lt (h : StackTable F c p) {frames : List Frame} (hf : frames ∈ F)
    (hnew : ∀ k ∈ p.stacks, k.frames ≠ frames) : p.stacks.length < F.card := by
  have hs : (p.stacks.map (·.frames)).toFinset ⊆ F.erase frames := by
    intro g hg
    obtain ⟨k, hk, rfl⟩ := List.mem_map.mp (List.mem_toFinset.mp hg)
    exact Finset.mem_erase.mpr ⟨hnew k hk, h.bounded k hk⟩
  have hle := Finset.card_le_card hs
  rw [List.toFinset_card_of_nodup h.distinct, List.length_map] at hle
  exact hle.trans_lt (Finset.card_erase_lt_of_mem hf)

theorem framesOf_of_mem {ks : List Stack} (hn : (ks.map (·.id)).Nodup) {k : Stack} (hk : k ∈ ks) :
    framesOf ks k.id = k.frames := (lookup_stack hn hk).2

/-- What the allocation of a stack id does. -/
structure Interned (F : Finset (List Frame)) (c : Correlator) (p : Profile) (frames : List Frame)
    (stackId : Nat) (c' : Correlator) (ks : List Stack) : Prop where
  eq : c.internStack p frames = (stackId, c', { p with «stacks» := ks })
  table : StackTable F c' { p with «stacks» := ks }
  sub : ∀ k ∈ p.stacks, k ∈ ks
  mem : (⟨stackId, frames⟩ : Stack) ∈ ks

theorem StackTable.intern (h : StackTable F c p) (hF : F.card ≤ u32Max) {frames : List Frame}
    (hf : frames ∈ F) : ∃ stackId c' ks, Interned F c p frames stackId c' ks := by
  cases hl : c.stackIds.lookup frames with
  | some id => exact ⟨id, c, p.stacks, by simp [Correlator.internStack, hl], h, fun _ hk => hk,
        (h.lookup _ _).mp hl⟩
  | none =>
      have hnew : ∀ k ∈ p.stacks, k.frames ≠ frames := by
        rintro ⟨id, _⟩ hk rfl
        rw [(h.lookup _ _).mpr hk] at hl
        cases hl
      have hlen := h.length_lt hf hnew
      have hid : c.nextStackId = p.stacks.length + 1 := by
        rw [h.next]; exact Nat.min_eq_left (by omega)
      have hnext : satAdd32 c.nextStackId 1 = min (p.stacks.length + 1 + 1) u32Max := by
        rw [hid]; rfl
      refine ⟨c.nextStackId, _, p.stacks ++ [⟨c.nextStackId, frames⟩], by
        simp only [Correlator.internStack, hl]; rfl, ?_, by simp +contextual, by simp⟩
      refine ⟨by simpa using hnext, ?_, ?_, ?_, ?_, ?_⟩
      · simp [List.range'_concat, h.ids, hid, Nat.add_comm]
      · intro g id
        rw [lookup_insert_if]
        split
        · rename_i he
          subst he
          simp only [List.mem_append, List.mem_singleton, Stack.mk.injEq, and_true, Option.some.injEq]
          exact ⟨fun he => .inr he.symm, fun he => he.elim (fun hk => absurd rfl (hnew _ hk)) Eq.symm⟩
        · rename_i he
          simp [h.lookup, he]
      · rw [List.map_append, List.nodup_append]
        simpa using ⟨h.distinct, hnew⟩
      · intro k hk
        rcases List.mem_append.mp hk with hk | hk
        · exact h.bounded k hk
        · rw [List.mem_singleton.mp hk]; exact hf
      · intro s hs
        obtain ⟨k, hk, he⟩ := h.known s hs
        exact ⟨k, List.mem_append_left _ hk, he⟩

/-! ## Samples -/

/-- The sample under its identity, with its frames. -/
def PendingSample.resolved (invocationId : Nat) (s : PendingSample) : ResolvedSample where
  timestampNs := s.timestampNs
  invocationId := invocationId
  frames := s.frames
  tid := s.tid
  cpu := s.cpu
  state := s.state
  weightNs := s.weightNs

def appendAll (s : Correlator × Profile) (l : List (Nat × PendingSample)) : Correlator × Profile :=
  l.foldl (fun s x => s.1.appendSample s.2 x.1 x.2) s

theorem resolve_of_sub {ks ks' : List Stack} (hn : (ks.map (·.id)).Nodup) (hn' : (ks'.map (·.id)).Nodup)
    (hs : ∀ k ∈ ks, k ∈ ks') {s : Sample} (hk : ∃ k ∈ ks, k.id = s.stackId) :
    resolve ks' s = resolve ks s := by
  obtain ⟨k, hk, he⟩ := hk
  simp only [resolve, ← he, framesOf_of_mem hn hk, framesOf_of_mem hn' (hs k hk)]

/-- What the samples appended to a profile do to it. -/
structure Appended (F : Finset (List Frame)) (s : Correlator × Profile) (l : List (Nat × PendingSample))
    (c' : Correlator) (ks : List Stack) (ss : List Sample) : Prop where
  eq : appendAll s l = (c', { s.2 with «stacks» := ks, samples := ss })
  table : StackTable F c' { s.2 with «stacks» := ks, samples := ss }
  resolved : ss.map (resolve ks) = s.2.resolvedSamples ++ l.map fun x => x.2.resolved x.1

theorem StackTable.append (h : StackTable F c p) (hF : F.card ≤ u32Max) (invocationId : Nat)
    {s : PendingSample} (hf : s.frames ∈ F) :
    ∃ c' ks ss, Appended F (c, p) [(invocationId, s)] c' ks ss := by
  obtain ⟨stackId, c', ks, hi⟩ := h.intern hF hf
  have hn := hi.table.idsNodup
  let sample : Sample := ⟨s.timestampNs, invocationId, stackId, s.tid, s.cpu, s.state, s.weightNs⟩
  refine ⟨c', ks, p.samples ++ [sample], ?_, ?_, ?_⟩
  · simp only [appendAll, List.foldl_cons, List.foldl_nil, Correlator.appendSample, hi.eq]
    rfl
  · refine ⟨hi.table.next, hi.table.ids, hi.table.lookup, hi.table.distinct, hi.table.bounded, ?_⟩
    intro t ht
    rcases List.mem_append.mp ht with ht | ht
    · exact hi.table.known t ht
    · rw [List.mem_singleton.mp ht]; exact ⟨_, hi.mem, rfl⟩
  · have hold : p.samples.map (resolve ks) = p.resolvedSamples :=
      List.map_congr_left fun t ht => resolve_of_sub h.idsNodup hn hi.sub (h.known t ht)
    have hnew : framesOf ks stackId = s.frames := framesOf_of_mem hn hi.mem
    simp only [List.map_append, hold, List.map_cons, List.map_nil, resolve, sample, hnew,
      PendingSample.resolved]

theorem StackTable.appendAll {s : Correlator × Profile} (h : StackTable F s.1 s.2) (hF : F.card ≤ u32Max)
    {l : List (Nat × PendingSample)} (hf : ∀ x ∈ l, x.2.frames ∈ F) :
    ∃ c' ks ss, Appended F s l c' ks ss := by
  induction l generalizing s with
  | nil => exact ⟨s.1, s.2.stacks, s.2.samples, rfl, h, (List.append_nil _).symm⟩
  | cons x l ih =>
      obtain ⟨c₁, ks₁, ss₁, h₁⟩ := h.append hF x.1 (hf x List.mem_cons_self)
      obtain ⟨c', ks, ss, h'⟩ := ih (s := (c₁, { s.2 with «stacks» := ks₁, samples := ss₁ })) h₁.table
        fun y hy => hf y (List.mem_cons_of_mem _ hy)
      refine ⟨c', ks, ss, ?_, h'.table, ?_⟩
      · rw [← h'.eq]
        exact congrArg (fun s => SliceProfiler.appendAll s l) h₁.eq
      · rw [h'.resolved, Profile.resolvedSamples, h₁.resolved]
        simp

/-! ## Renaming of stack ids -/

def Stack.rename (σ : Nat → Nat) (k : Stack) : Stack := { k with id := σ k.id }

def Sample.rename (σ : Nat → Nat) (s : Sample) : Sample := { s with stackId := σ s.stackId }

/-- The id of the frames in a table. -/
def idOf (ks : List Stack) (frames : List Frame) : Nat :=
  ((ks.find? fun k => k.frames = frames).map (·.id)).getD 0

theorem idOf_of_mem {ks : List Stack} (hn : (ks.map (·.frames)).Nodup) {k : Stack} (hk : k ∈ ks) :
    idOf ks k.frames = k.id := by
  rw [idOf, (find_key_eq_some hn).mpr ⟨hk, rfl⟩]; rfl

/-- The sample in a table with the frames. -/
def ResolvedSample.unresolve (ks : List Stack) (r : ResolvedSample) : Sample where
  timestampNs := r.timestampNs
  invocationId := r.invocationId
  stackId := idOf ks r.frames
  tid := r.tid
  cpu := r.cpu
  state := r.state
  weightNs := r.weightNs

/-- Every stack of the profile belongs to some sample. -/
def Profile.UsedStacks (p : Profile) : Prop :=
  ∀ k ∈ p.stacks, ∃ r ∈ p.resolvedSamples, r.frames = k.frames

variable {G : Finset (List Frame)} {d : Correlator} {q : Profile}

theorem StackTable.unresolve (h : StackTable F c p) :
    p.resolvedSamples.map (ResolvedSample.unresolve p.stacks) = p.samples := by
  rw [Profile.resolvedSamples, List.map_map]
  refine (List.map_congr_left fun s hs => ?_).trans (List.map_id _)
  obtain ⟨k, hk, he⟩ := h.known s hs
  have hid : idOf p.stacks (framesOf p.stacks s.stackId) = s.stackId := by
    rw [← he, framesOf_of_mem h.idsNodup hk, idOf_of_mem h.distinct hk]
  simp only [Function.comp_apply, resolve, ResolvedSample.unresolve, hid, id_eq]

theorem StackTable.frames_of_resolved (h : StackTable F c p) {r : ResolvedSample}
    (hr : r ∈ p.resolvedSamples) : ∃ k ∈ p.stacks, k.frames = r.frames := by
  obtain ⟨s, hs, rfl⟩ := List.mem_map.mp hr
  obtain ⟨k, hk, he⟩ := h.known s hs
  exact ⟨k, hk, by simp only [resolve, ← he, framesOf_of_mem h.idsNodup hk]⟩

/-- The id in the second table of the frames that an id has in the first. -/
def renameId (ks ks' : List Stack) (id : Nat) : Nat := idOf ks' (framesOf ks id)

theorem StackTable.rename_eq (h : StackTable F c p) (h' : StackTable G d q) {k k' : Stack} (hk : k ∈ p.stacks)
    (hk' : k' ∈ q.stacks) (he : k'.frames = k.frames) : k.rename (renameId p.stacks q.stacks) = k' := by
  have hid : renameId p.stacks q.stacks k.id = k'.id := by
    rw [renameId, framesOf_of_mem h.idsNodup hk, ← he, idOf_of_mem h'.distinct hk']
  simp only [Stack.rename, hid, ← he]

theorem StackTable.renameId_injOn (h : StackTable F c p) (h' : StackTable G d q)
    (hto : ∀ k ∈ p.stacks, ∃ k' ∈ q.stacks, k'.frames = k.frames) :
    Set.InjOn (renameId p.stacks q.stacks) {id | id ∈ p.stacks.map (·.id)} := by
  rintro _ h₁ _ h₂ he
  obtain ⟨k₁, hk₁, rfl⟩ := List.mem_map.mp h₁
  obtain ⟨k₂, hk₂, rfl⟩ := List.mem_map.mp h₂
  obtain ⟨k₁', hk₁', hf₁⟩ := hto k₁ hk₁
  obtain ⟨k₂', hk₂', hf₂⟩ := hto k₂ hk₂
  have hid : k₁'.id = k₂'.id := by
    rw [← h.rename_eq h' hk₁ hk₁' hf₁, ← h.rename_eq h' hk₂ hk₂' hf₂]; exact he
  have hk : k₁' = k₂' := List.inj_on_of_nodup_map h'.idsNodup hk₁' hk₂' hid
  subst hk
  rw [List.inj_on_of_nodup_map h.distinct hk₁ hk₂ (hf₁.symm.trans hf₂)]

theorem StackTable.rename_perm (h : StackTable F c p) (h' : StackTable G d q)
    (hto : ∀ k ∈ p.stacks, ∃ k' ∈ q.stacks, k'.frames = k.frames)
    (hfrom : ∀ k' ∈ q.stacks, ∃ k ∈ p.stacks, k.frames = k'.frames) :
    (p.stacks.map (Stack.rename (renameId p.stacks q.stacks))).Perm q.stacks := by
  refine (List.perm_ext_iff_of_nodup ?_ (List.Nodup.of_map _ h'.idsNodup)).mpr fun k' => ?_
  · refine List.Nodup.of_map (fun k => k.frames) ?_
    rw [List.map_map]; exact h.distinct
  · constructor
    · intro hm
      obtain ⟨k, hk, rfl⟩ := List.mem_map.mp hm
      obtain ⟨k', hk', he⟩ := hto k hk
      rw [h.rename_eq h' hk hk' he]; exact hk'
    · intro hk'
      obtain ⟨k, hk, he⟩ := hfrom k' hk'
      exact List.mem_map.mpr ⟨k, hk, h.rename_eq h' hk hk' he.symm⟩

/-- Profiles with the same resolved samples differ by a renaming of the stack ids. -/
theorem StackTable.exists_renaming (h : StackTable F c p) (hu : p.UsedStacks) (h' : StackTable G d q)
    (hu' : q.UsedStacks) (hr : p.resolvedSamples.Perm q.resolvedSamples) :
    ∃ σ : Nat → Nat, Set.InjOn σ {id | id ∈ p.stacks.map (·.id)} ∧
      (p.stacks.map (Stack.rename σ)).Perm q.stacks ∧ (p.samples.map (Sample.rename σ)).Perm q.samples := by
  have hto : ∀ k ∈ p.stacks, ∃ k' ∈ q.stacks, k'.frames = k.frames := by
    intro k hk
    obtain ⟨r, hm, he⟩ := hu k hk
    rw [← he]; exact h'.frames_of_resolved (hr.mem_iff.mp hm)
  have hfrom : ∀ k' ∈ q.stacks, ∃ k ∈ p.stacks, k.frames = k'.frames := by
    intro k hk
    obtain ⟨r, hm, he⟩ := hu' k hk
    rw [← he]; exact h.frames_of_resolved (hr.mem_iff.mpr hm)
  refine ⟨renameId p.stacks q.stacks, h.renameId_injOn h' hto, h.rename_perm h' hto hfrom, ?_⟩
  have hs : p.samples.map (Sample.rename (renameId p.stacks q.stacks)) =
      p.resolvedSamples.map (ResolvedSample.unresolve q.stacks) := by
    rw [Profile.resolvedSamples, List.map_map]; rfl
  rw [hs, ← h'.unresolve]
  exact hr.map _

end SliceProfiler
