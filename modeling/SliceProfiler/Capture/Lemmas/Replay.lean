import Mathlib.Data.Int.Interval
import Mathlib.Order.Interval.Finset.Defs
import SliceProfiler.Capture.Replay
import SliceProfiler.Collector.Lemmas.Order

/-!
# The replay loop as a sequence of collector events
-/

namespace SliceProfiler

open Lib

variable {request : CaptureRequest} {resolver : Resolver} {store : StackStore}

section Translate

variable (request resolver store)

/-- The collector event of a raw event. An unknown kind counts as one dropped event. -/
def translate (e : Event) : CollectorEvent :=
  match e.kind with
  | 1 => .entry (some e.invocationId) request.function.id e.tid e.timestampNs
  | 2 => .ret (some e.invocationId) request.function.id e.tid e.timestampNs
  | 3 => .sample (some e.invocationId) ⟨e.tid, e.timestampNs, e.cpu, .onCpu, e.weightNs,
      resolver.frames (store.get e.stackId)⟩
  | 4 => .violation e.tid e.timestampNs
  | 5 => .sample (some e.invocationId) ⟨e.tid, e.timestampNs, e.cpu, .offCpu, e.weightNs,
      request.offCpuFrames (resolver.frames (store.get e.stackId))⟩
  | _ => .droppedEvents 1

/-- The collector events of a capture, in their order. -/
def translateAll (events : List Event) : List CollectorEvent :=
  (sortEvents events).map (translate request resolver store)

end Translate

/-- The kind of an event, as far as the replay tells kinds apart. -/
inductive KindCase : Nat → Prop where
  | entry : KindCase 1
  | ret : KindCase 2
  | sample : KindCase 3
  | violation : KindCase 4
  | offCpu : KindCase 5
  | unknown {n : Nat} (h : n ≠ 1 ∧ n ≠ 2 ∧ n ≠ 3 ∧ n ≠ 4 ∧ n ≠ 5) : KindCase n

theorem kindCase (n : Nat) : KindCase n := by
  by_cases h : n ≠ 1 ∧ n ≠ 2 ∧ n ≠ 3 ∧ n ≠ 4 ∧ n ≠ 5
  · exact .unknown h
  · have : n = 1 ∨ n = 2 ∨ n = 3 ∨ n = 4 ∨ n = 5 := by omega
    rcases this with rfl | rfl | rfl | rfl | rfl
    · exact .entry
    · exact .ret
    · exact .sample
    · exact .violation
    · exact .offCpu

theorem replayEvent_eq (s : Correlator × Profile) (e : Event) :
    replayEvent request resolver store s e = s.1.push s.2 (translate request resolver store e) := by
  obtain ⟨kind, tid, ts, id, stackId, cpu, weight⟩ := e
  cases kindCase kind with
  | entry | ret | sample | violation | offCpu => rfl
  | unknown h =>
      obtain ⟨h1, h2, h3, h4, h5⟩ := h
      simp only [replayEvent, translate]
      rfl

theorem tagged_translateAll (events : List Event) :
    ∀ e ∈ translateAll request resolver store events, e.Tagged := by
  intro e he
  obtain ⟨raw, -, rfl⟩ := List.mem_map.mp he
  unfold translate
  split <;> trivial

theorem replay_eq (p : Profile) (events : List Event) (t : Nat) :
    replay request resolver store p events t =
      collectEvents p (translateAll request resolver store events) t := by
  have hfold : (sortEvents events).foldl (replayEvent request resolver store) ({}, p) =
      pushAll ({}, p) (translateAll request resolver store events) := by
    rw [pushAll, translateAll, List.foldl_map]
    exact congrArg (fun f => List.foldl f _ _) (funext fun s => funext fun e => replayEvent_eq s e)
  rw [replay, hfold]
  rfl

/-! ## Delivery order -/

/-- What the sort key says of an event. -/
def skeletonOfKey (request : CaptureRequest) (k : Nat ×ₗ Nat ×ₗ Nat ×ₗ Nat) : CollectorEvent :=
  let (timestampNs, rest) := ofLex k
  let (tid, rest) := ofLex rest
  let (invocationId, order) := ofLex rest
  match order with
  | 0 => .entry (some invocationId) request.function.id tid timestampNs
  | 1 => .sample (some invocationId) ⟨tid, timestampNs, 0, .onCpu, 0, []⟩
  | 2 => .ret (some invocationId) request.function.id tid timestampNs
  | 3 => .violation tid timestampNs
  | _ => .droppedEvents 1

theorem skeleton_translate (e : Event) :
    (translate request resolver store e).skeleton = skeletonOfKey request e.sortKey := by
  obtain ⟨kind, tid, ts, id, stackId, cpu, weight⟩ := e
  cases kindCase kind with
  | entry | ret | sample | violation | offCpu => rfl
  | unknown h =>
      obtain ⟨h1, h2, h3, h4, h5⟩ := h
      simp [translate, skeletonOfKey, Event.sortKey, eventKindOrder, CollectorEvent.skeleton]

section Delivery

variable (request resolver store)

/-- Delivery in another order keeps the skeleton of the collector events. -/
theorem skeleton_translateAll_perm {l₁ l₂ : List Event} (h : l₁.Perm l₂) :
    (translateAll request resolver store l₁).map CollectorEvent.skeleton =
      (translateAll request resolver store l₂).map CollectorEvent.skeleton := by
  have hmap : ∀ l, (translateAll request resolver store l).map CollectorEvent.skeleton =
      ((sortEvents l).map Event.sortKey).map (skeletonOfKey request) := by
    intro l
    rw [translateAll, List.map_map, List.map_map]
    exact List.map_congr_left fun e _ => skeleton_translate e
  rw [hmap, hmap, sortEvents, sortEvents, sortByKey_keys_of_perm h]

theorem translateAll_perm {l₁ l₂ : List Event} (h : l₁.Perm l₂) :
    (translateAll request resolver store l₁).Perm (translateAll request resolver store l₂) :=
  (((sortByKey_perm _ l₁).trans h).trans (sortByKey_perm _ l₂).symm).map _

end Delivery

/-! ## The number of stacks -/

/-- The address lists that the store can answer with. -/
def StackStore.answers (store : StackStore) : Finset (List Nat) :=
  insert [] (store.addresses.keys.toFinset.image store.get)

theorem StackStore.get_mem_answers (store : StackStore) (stackId : Int) :
    store.get stackId ∈ store.answers := by
  by_cases h : stackId ∈ store.addresses.keys
  · exact Finset.mem_insert_of_mem (Finset.mem_image_of_mem _ (List.mem_toFinset.mpr h))
  · have hl : store.addresses.lookup stackId = none := AList.lookup_eq_none.mpr h
    rw [StackStore.get, hl]
    exact Finset.mem_insert_self _ _

theorem StackStore.card_answers (store : StackStore) : store.answers.card ≤ 32769 := by
  have hsub : store.addresses.keys.toFinset ⊆ Finset.Ico (0 : Int) 32768 := by
    intro k hk
    exact Finset.mem_Ico.mpr (store.bounded k (List.mem_toFinset.mp hk))
  have hcard := Finset.card_le_card hsub
  have himage := Finset.card_image_le (s := store.addresses.keys.toFinset) (f := store.get)
  have hins := Finset.card_insert_le [] (store.addresses.keys.toFinset.image store.get)
  rw [Int.card_Ico] at hcard
  rw [StackStore.answers]
  omega

theorem framesIn_translateAll (events : List Event) :
    (framesIn (translateAll request resolver store events)).card < u32Max := by
  have hsub : framesIn (translateAll request resolver store events) ⊆
      store.answers.image resolver.frames ∪
        store.answers.image fun a => request.offCpuFrames (resolver.frames a) := by
    intro frames hf
    obtain ⟨e, he, hfr⟩ := List.mem_filterMap.mp (List.mem_toFinset.mp hf)
    obtain ⟨raw, -, rfl⟩ := List.mem_map.mp he
    unfold translate at hfr
    split at hfr <;> cases hfr
    · exact Finset.mem_union_left _ (Finset.mem_image_of_mem _ (store.get_mem_answers _))
    · exact Finset.mem_union_right _ (Finset.mem_image_of_mem (fun a => request.offCpuFrames (resolver.frames a))
        (store.get_mem_answers _))
  have h := (Finset.card_le_card hsub).trans (Finset.card_union_le _ _)
  have h₁ := Finset.card_image_le (s := store.answers) (f := resolver.frames)
  have h₂ := Finset.card_image_le (s := store.answers) (f := fun a => request.offCpuFrames (resolver.frames a))
  have h₃ := store.card_answers
  have h₄ : u32Max = 4294967295 := rfl
  omega

end SliceProfiler
