import SliceProfiler.Kernel.Lemmas.Returns

/-!
# The records of a call

How often an identity is recorded, and what is recorded of a call when no record is lost.
-/

namespace SliceProfiler

open Lib

variable {config : SliceConfig} {w w' : World} {p : Probe} {own : Nat → Nat × Nat}

/-! ## One record of a kind -/

theorem countRecords_concat {kind i : Nat} {events : List Event} {e : Event} :
    countRecords kind i (events ++ [e]) =
      countRecords kind i events + if e.kind = kind ∧ e.invocationId = i then 1 else 0 := by
  simp [countRecords, List.countP_cons]

theorem countRecords_eq_zero {kind i : Nat} {events : List Event} :
    countRecords kind i events = 0 ↔ ∀ e ∈ events, e.kind = kind → e.invocationId ≠ i := by
  simp [countRecords, List.countP_eq_zero]

/-- An identity has at most one entry record and one return record, and no return record while it is active. -/
structure World.OneRecord (w : World) : Prop where
  entry : ∀ i, countRecords 1 i w.kernel.events ≤ 1
  ret : ∀ i, countRecords 2 i w.kernel.events ≤ 1
  active : ∀ tid a, w.kernel.activeByTid.lookup tid = some a → countRecords 2 a.id w.kernel.events = 0

theorem World.Tracked.fresh_zero (ht : w.Tracked own) {kind : Nat} (hk : kind ≠ 4) :
    countRecords kind (w.kernel.nextInvocationId + 1) w.kernel.events = 0 := by
  refine countRecords_eq_zero.mpr fun e he hek hid => ?_
  have := (ht.owned.events e he).fresh (by omega)
  omega

/-- A step adds a record of a kind and an identity only as the record that it emits. -/
theorem World.Steps.countRecords (hs : w.Steps config p w') (kind i : Nat) :
    countRecords kind i w'.kernel.events = countRecords kind i w.kernel.events ∨
      ∃ e, w.NewRecord p e ∧ e.kind = kind ∧ e.invocationId = i ∧
        countRecords kind i w'.kernel.events = countRecords kind i w.kernel.events + 1 := by
  rcases hs.events with ⟨he, -⟩ | ⟨-, e, hnew, he⟩
  · exact .inl (by rw [he])
  · rw [he, countRecords_concat]
    split
    · rename_i hc
      exact .inr ⟨e, hnew, hc.1, hc.2, rfl⟩
    · exact .inl rfl

theorem World.OneRecord.step (h : w.OneRecord) (ht : w.Tracked own) (hs : w.Steps config p w') : w'.OneRecord := by
  refine ⟨fun i => ?_, fun i => ?_, fun tid a ha => ?_⟩
  · rcases hs.countRecords 1 i with he | ⟨e, hnew, hk, rfl, he⟩
    · exact he.trans_le (h.entry i)
    · cases hnew with
      | opened => rw [he, ht.fresh_zero (by decide)]
      | nested | unmatched | closed => cases hk
  · rcases hs.countRecords 2 i with he | ⟨e, hnew, hk, rfl, he⟩
    · exact he.trans_le (h.ret i)
    · cases hnew with
      | closed ha => rw [he, h.active _ _ ha]
      | nested | opened | unmatched => cases hk
  · have hs' := hs
    cases hs with
    | @call ctx hnow =>
        rcases hs'.countRecords 2 a.id with he | ⟨e, hnew, hk, -⟩
        · rw [he]
          rw [lookup_enter] at ha
          split at ha
          · cases ha
            exact ht.fresh_zero (by decide)
          · exact h.active tid a ha
        · cases hnew <;> cases hk
    | @ret ctx c rest hnow hstack =>
        rw [lookup_leave] at ha
        split at ha
        · cases ha
        · rename_i htid
          rcases hs'.countRecords 2 a.id with he | ⟨e, hnew, hk, hid, -⟩
          · exact he.trans (h.active tid a ha)
          · cases hnew with
            | unmatched => cases hk
            | closed hb =>
                -- two threads cannot share an active identity
                have hown := (ht.owned.active _ _ hb).own
                dsimp only at hid
                rw [hid, (ht.owned.active tid a ha).own] at hown
                exact absurd (Prod.mk.inj hown).1 htid

/-! ## Entries -/

/-- The entry of a call that has an id is recorded. -/
def World.EntryRecorded (w : World) : Prop :=
  ∀ c ∈ w.entered, ∀ i, c.id = some i →
    ∃ e ∈ w.kernel.events, e.kind = 1 ∧ e.invocationId = i ∧ e.tid = c.tid ∧ e.timestampNs = c.enterNs

theorem World.EntryRecorded.step (h : w.EntryRecorded) (hs : w.Steps config p w')
    (hres : p.context.reserved = true) : w'.EntryRecorded := by
  have hs' := hs
  intro c hc i hi
  have hold : c ∈ w.entered → ∃ e ∈ w'.kernel.events, e.kind = 1 ∧ e.invocationId = i ∧ e.tid = c.tid ∧
      e.timestampNs = c.enterNs := by
    intro hc
    obtain ⟨e, he, hspec⟩ := h c hc i hi
    exact ⟨e, hs'.mem_events.mpr (.inl he), hspec⟩
  cases hs with
  | call hnow =>
      rcases List.mem_cons.mp hc with rfl | hc
      · obtain ⟨hn, hu, rfl⟩ := callOf_id.mp hi
        exact ⟨_, hs'.mem_events.mpr (.inr ⟨hres, .opened hn hu⟩), rfl, rfl, rfl, rfl⟩
      · exact hold hc
  | ret => exact hold hc

/-! ## Leaves -/

/-- A leaf that has an id and returned has its return record, and no violation is recorded inside it. -/
def World.LeafRecorded (w : World) : Prop :=
  ∀ c r i, (c, r) ∈ w.returned → c.id = some i → w.Leaf c r →
    (∃ e ∈ w.kernel.events, e.kind = 2 ∧ e.invocationId = i ∧ e.tid = c.tid ∧ e.timestampNs = r) ∧
      ∀ v ∈ w.kernel.events, v.kind = 4 → v.tid = c.tid → c.enterNs ≤ v.timestampNs → r < v.timestampNs

theorem World.LeafRecorded.step (h : w.LeafRecorded) (ht : w.Tracked own) (ho : w.OpenLeaves)
    (hs : w.Steps config p w') (hres : p.context.reserved = true) : w'.LeafRecorded := by
  intro c r i hc hi hleaf
  have hs' := hs
  have hold : (c, r) ∈ w.returned → w.Leaf c r → (∃ e ∈ w'.kernel.events, e.kind = 2 ∧ e.invocationId = i ∧
      e.tid = c.tid ∧ e.timestampNs = r) ∧ ∀ v ∈ w'.kernel.events, v.kind = 4 → v.tid = c.tid →
        c.enterNs ≤ v.timestampNs → r < v.timestampNs := by
    intro hc hleaf
    obtain ⟨⟨e, he, hspec⟩, hclear⟩ := h c r i hc hi hleaf
    refine ⟨⟨e, hs'.mem_events.mpr (.inl he), hspec⟩, fun v hv hk hvt hle => ?_⟩
    rcases hs'.mem_events.mp hv with hv | ⟨-, hv⟩
    · exact hclear v hv hk hvt hle
    · -- a new record of the thread is later than the return
      have hnow : w.clock p.context.tid ≤ p.context.now := by cases hs' <;> assumption
      rw [hv.timestampNs]
      exact ht.returned_lt hc (hvt.symm.trans hv.tid) hnow
  cases hs with
  | call => exact hold hc hleaf.of_enter
  | @ret ctx x rest hnow hstack =>
      rcases List.mem_cons.mp hc with he | hc
      · obtain ⟨rfl, rfl⟩ := Prod.mk.inj he
        obtain ⟨⟨a, ha, rfl⟩, hclear⟩ := ho.top ht hnow hstack hi hleaf
        have hx := ht.top_mem hstack
        refine ⟨⟨_, hs'.mem_events.mpr (.inr ⟨hres, .closed ha⟩), rfl, rfl, hx.2.symm, rfl⟩, fun v hv hk hvt hle => ?_⟩
        rcases hs'.mem_events.mp hv with hv | ⟨-, hv⟩
        · exact absurd (hclear v hv hk (hvt.trans hx.2)) hle.not_gt
        · -- the new record is the return, since the call is active
          cases hv with
          | unmatched hn => rw [ha] at hn; cases hn
          | closed => cases hk
      · exact hold hc hleaf

end SliceProfiler
