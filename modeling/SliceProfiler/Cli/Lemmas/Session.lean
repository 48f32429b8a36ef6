import SliceProfiler.Cli.Lemmas.Profile

/-!
# What a call of `profile` leads to

One lemma says all that the result of a call can do. From it come what holds of the profiled process, which profile is
saved, and how many calls are left once the capture has to end.
-/

namespace SliceProfiler.Cli

open Lib

/-- What a call does that is no error. -/
inductive Session.Goes (s : Session) : Answer → Session → Prop where
  | spawn {program : String} {pid : Nat} {a : Answer} (h : s.pc = .spawn program) :
      Goes s a { s with pid, launched := true, command := program :: s.args.args, pc := .stopProcess }
  | stopProcess {a : Answer} (h : s.pc = .stopProcess) :
      Goes s a { s with status := s.status.stop, pc := .waitForStopped }
  | waitForStopped {a : Answer} (h : s.pc = .waitForStopped) : Goes s a { s with pc := .resolveProcessIdentity }
  | resolve {target : ProcessIdentity} {a : Answer} (h : s.pc = .resolveProcessIdentity) :
      Goes s a { s with pc := .setHandler target }
  | setHandler {target : ProcessIdentity} {a : Answer} (h : s.pc = .setHandler target) :
      Goes s a { s with handler := .idle, pc := .attach (s.request target) }
  | attach {request : CaptureRequest} {a : Answer} (h : s.pc = .attach request) :
      Goes s a { s with pc := if request.resumeAfterAttach then .resume else .processExists }
  | resume {a : Answer} (h : s.pc = .resume) :
      Goes s a { s with status := s.status.continue, resumed := true, pc := .processExists }
  | gone {a : Answer} (h : s.pc = .processExists) : Goes s a { s with pc := .drain 3 }
  | alive {text : Except Messages String} (h : s.pc = .processExists) (hx : processExists text.toOption = true) :
      Goes s (.status text) { s with pc := .loadStopRequested }
  | stops {a : Answer} (h : s.pc = .loadStopRequested) (hs : s.stopRequested = true) :
      Goes s a { s with pc := .drain 3 }
  | continues {a : Answer} (h : s.pc = .loadStopRequested) (hs : s.stopRequested = false) :
      Goes s a { s with pc := .poll }
  | polled {a : Answer} (h : s.pc = .poll) : Goes s a { s with pc := .processExists }
  | interrupted {a : Answer} (h : s.pc = .poll) : Goes s a { s with pc := .drain 3 }
  | drains {left : Nat} {a : Answer} (h : s.pc = .drain left) (hl : 1 < left) :
      Goes s a { s with pc := .drain (left - 1) }
  | drained {left : Nat} {a : Answer} (h : s.pc = .drain left) : Goes s a { s with pc := .collect }
  | collected {profile : Profile} {a : Answer} (h : s.pc = .collect) (hp : completeInvocations profile ≠ 0) :
      Goes s a { s with pc := .writeProfile profile }
  | written {profile : Profile} (h : s.pc = .writeProfile profile) :
      Goes s (.done (.ok ())) { s with pc := if s.launched then .wait else .returned (.ok ()) }
  | waited {a : Answer} (h : s.pc = .wait) : Goes s a { s with pc := .returned (.ok ()) }

variable {s s' : Session} {a : Answer} {α : Type} {r : Except Messages α} {next : α → Session}

/-- An error return. A child that could not be stopped is killed. -/
def Session.Fails (s s' : Session) : Prop :=
  ∃ e, s' = s.killChild.fail e ∨ s.pc ≠ .stopProcess ∧ s' = s.fail e

theorem goes_orFail (hpc : s.pc ≠ .stopProcess) (h : ∀ v, r = .ok v → s.Goes a (next v)) :
    s.Goes a (s.orFail r next) ∨ s.Fails (s.orFail r next) := by
  cases r with
  | ok v => exact .inl (h v rfl)
  | error e => exact .inr ⟨e, .inr ⟨hpc, rfl⟩⟩

theorem goes_orKill (h : ∀ v, r = .ok v → s.Goes a (next v)) :
    s.Goes a (s.orKill r next) ∨ s.Fails (s.orKill r next) := by
  cases r with
  | ok v => exact .inl (h v rfl)
  | error e => exact .inr ⟨e, .inl rfl⟩

theorem answer_cases (h : s.answer a = some s') : s.Goes a s' ∨ s.Fails s' := by
  unfold Session.answer at h
  split at h
  · cases h
    rename_i hpc
    exact goes_orFail (by simp [hpc]) fun _ _ => .spawn hpc
  · cases h
    rename_i hpc
    exact goes_orKill fun _ _ => .stopProcess hpc
  · cases h
    rename_i hpc
    exact goes_orKill fun _ _ => .waitForStopped hpc
  · cases h
    rename_i hpc
    exact goes_orFail (by simp [hpc]) fun _ _ => .resolve hpc
  · cases h
    rename_i hpc
    exact goes_orKill fun _ _ => .setHandler hpc
  · cases h
    rename_i hpc
    exact goes_orKill fun _ _ => .attach hpc
  · cases h
    rename_i hpc
    exact goes_orKill fun _ _ => .resume hpc
  · cases h
    rename_i hpc
    split
    · rename_i hx
      exact .inl (.alive hpc hx)
    · exact .inl (.gone hpc)
  · cases h
    rename_i hpc
    split
    · rename_i hs
      exact .inl (.stops hpc hs)
    · rename_i hs
      exact .inl (.continues hpc (by simpa using hs))
  · cases h
    rename_i hpc
    refine goes_orKill fun more _ => ?_
    cases more with
    | true => exact .polled hpc
    | false => exact .interrupted hpc
  · cases h
    rename_i left r hpc
    refine goes_orKill fun more _ => ?_
    by_cases hmore : more = true ∧ 1 < left
    · simp only [hmore, decide_true, Bool.and_self, if_true]
      exact .drains hpc hmore.2
    · have hfalse : (more && decide (1 < left)) = false := by simpa using hmore
      simp only [hfalse, Bool.false_eq_true, if_false]
      exact .drained hpc
  · cases h
    rename_i hpc
    refine goes_orFail (by simp [hpc]) fun _ hr => .collected hpc ?_
    exact (isOk_checkProfile _).mp (by rw [hr]; rfl)
  · cases h
    rename_i r hpc
    cases r with
    | ok _ => exact .inl (.written hpc)
    | error e => exact .inr ⟨e, .inl rfl⟩
  · cases h
    rename_i hpc
    exact goes_orFail (by simp [hpc]) fun _ _ => .waited hpc
  · cases h

def Event.isAnswer : Event → Bool
  | .answer _ => true
  | _ => false

/-- All that an event can do: a call returns, or another party takes its step. -/
theorem step_cases {e : Event} (h : s.step e = some s') :
    (∃ a, e = .answer a ∧ (s.Goes a s' ∨ s.Fails s')) ∨ e.isAnswer = false ∧ s.Leaves s' := by
  cases e with
  | answer a => exact .inl ⟨a, rfl, answer_cases h⟩
  | exits | ctrlC | interrupts => exact .inr ⟨rfl, leaves_step h (by simp)⟩

theorem Session.Fails.pc (h : s.Fails s') : ∃ e, s'.pc = .returned (.error e) := by
  obtain ⟨e, rfl | ⟨-, rfl⟩⟩ := h
  · exact ⟨e, rfl⟩
  · exact ⟨e, rfl⟩

theorem Session.Fails.status (h : s.Fails s') : s'.status = s.status := by
  obtain ⟨e, rfl | ⟨-, rfl⟩⟩ := h
  · rfl
  · rfl

theorem Session.Fails.stopRequested (h : s.Fails s') : s'.stopRequested = s.stopRequested := by
  obtain ⟨e, rfl | ⟨-, rfl⟩⟩ := h
  · rfl
  · rfl

/-! ## The profiled process -/

/-- The calls behind the attachment of the probes. -/
def Pc.attached : Pc → Bool
  | .spawn _ | .stopProcess | .waitForStopped | .resolveProcessIdentity | .setHandler _ | .attach _ | .resume => false
  | .processExists | .loadStopRequested | .poll | .drain _ | .collect | .writeProfile _ | .wait | .returned _ => true

/-- A process that was running before is left alone. A child that was stopped runs no instruction before the probes are
attached, unless it was interrupted or killed. -/
structure Session.Supervises (s : Session) : Prop where
  untouched : s.launched = false →
    s.status ≠ .stopped ∧ s.resumed = false ∧ s.killed = false ∧ s.interrupted = false
  paused : s.launched = true → s.status = .running →
    s.pc = .stopProcess ∨ s.resumed = true ∨ s.interrupted = true ∨ s.killed = true
  attached : s.resumed = true → s.pc.attached = true

/-- The calls that a child is needed for. -/
def Pc.needsChild : Pc → Bool
  | .stopProcess | .waitForStopped | .resume => true
  | _ => false

/-- The invariant behind it. -/
structure Session.Supervised (s : Session) : Prop extends s.Supervises where
  child : s.pc.needsChild = true → s.launched = true
  handler : s.handler = .stored → s.launched = true
  request : ∀ request, s.pc = .attach request → request.resumeAfterAttach = s.launched

theorem Session.Supervised.goTo (h : s.Supervised) {pc : Pc} (hpc : s.pc ≠ .stopProcess)
    (hattached : s.pc.attached = true → pc.attached = true) (hchild : pc.needsChild = true → s.launched = true)
    (hrequest : ∀ request, pc = .attach request → request.resumeAfterAttach = s.launched) :
    Session.Supervised { s with pc } where
  untouched := h.untouched
  paused hl hs := .inr ((h.paused hl hs).resolve_left hpc)
  attached hr := hattached (h.attached hr)
  child := hchild
  handler := h.handler
  request := hrequest

/-- Behind the attachment the calls need no child. -/
theorem Session.Supervised.goAttached (h : s.Supervised) {pc : Pc} (hpc : s.pc ≠ .stopProcess)
    (hattached : pc.attached = true) : Session.Supervised { s with pc } := by
  refine h.goTo hpc (fun _ => hattached) (fun hchild => ?_) fun request he => ?_
  · cases pc <;> simp [Pc.needsChild, Pc.attached] at hchild hattached
  · rw [he] at hattached
    cases hattached

theorem Session.Supervised.fails (h : s.Supervised) (hf : s.Fails s') : s'.Supervised := by
  obtain ⟨e, rfl | ⟨hpc, rfl⟩⟩ := hf
  · refine ⟨⟨fun hl => ?_, fun hl _ => ?_, fun _ => rfl⟩, by simp [Session.fail, Pc.needsChild], h.handler,
      by simp [Session.fail]⟩
    · obtain ⟨hstatus, hresumed, hkilled, hinterrupted⟩ := h.untouched hl
      refine ⟨hstatus, hresumed, ?_, hinterrupted⟩
      simp [Session.fail, Session.killChild, hkilled, show s.launched = false from hl]
    · refine .inr (.inr (.inr ?_))
      simp [Session.fail, Session.killChild, show s.launched = true from hl]
  · exact h.goAttached hpc rfl

theorem Session.Supervised.goes (h : s.Supervised) (hg : s.Goes a s') : s'.Supervised := by
  cases hg with
  | spawn hpc =>
      refine ⟨⟨by simp, fun _ _ => .inl rfl, fun hr => ?_⟩, fun _ => rfl, fun _ => rfl, by simp⟩
      have := h.attached hr
      rw [hpc] at this
      cases this
  | stopProcess hpc =>
      have hl : s.launched = true := h.child (by rw [hpc]; rfl)
      refine ⟨⟨by simp [hl], fun _ hs => ?_, fun hr => ?_⟩, fun _ => hl, fun _ => hl, by simp⟩
      · cases hstatus : s.status <;> simp [hstatus, Status.stop] at hs
      · have := h.attached hr
        rw [hpc] at this
        cases this
  | waitForStopped hpc => exact h.goTo (by simp [hpc]) (by simp [hpc, Pc.attached]) (by simp [Pc.needsChild]) (by simp)
  | resolve hpc => exact h.goTo (by simp [hpc]) (by simp [hpc, Pc.attached]) (by simp [Pc.needsChild]) (by simp)
  | @setHandler target _ hpc =>
      have hgo : Session.Supervised { s with pc := .attach (s.request target) } := by
        refine h.goTo (by simp [hpc]) (by simp [hpc, Pc.attached]) (by simp [Pc.needsChild]) fun request he => ?_
        cases he
        rfl
      exact ⟨⟨hgo.untouched, hgo.paused, hgo.attached⟩, hgo.child, by simp, hgo.request⟩
  | @attach request _ hpc =>
      have hrequest := h.request request hpc
      cases hl : request.resumeAfterAttach with
      | true =>
          exact h.goTo (by simp [hpc]) (by simp [hpc, Pc.attached]) (fun _ => hrequest ▸ hl) (by simp)
      | false => exact h.goAttached (by simp [hpc]) rfl
  | resume hpc =>
      have hl : s.launched = true := h.child (by rw [hpc]; rfl)
      exact ⟨⟨by simp [hl], fun _ _ => .inr (.inl rfl), fun _ => rfl⟩, by simp [Pc.needsChild], fun _ => hl, by simp⟩
  | written hpc =>
      refine h.goAttached (by simp [hpc]) ?_
      split <;> rfl
  | gone hpc => exact h.goAttached (by simp [hpc]) rfl
  | alive hpc _ => exact h.goAttached (by simp [hpc]) rfl
  | stops hpc _ => exact h.goAttached (by simp [hpc]) rfl
  | continues hpc _ => exact h.goAttached (by simp [hpc]) rfl
  | polled hpc => exact h.goAttached (by simp [hpc]) rfl
  | interrupted hpc => exact h.goAttached (by simp [hpc]) rfl
  | drains hpc _ => exact h.goAttached (by simp [hpc]) rfl
  | drained hpc => exact h.goAttached (by simp [hpc]) rfl
  | collected hpc _ => exact h.goAttached (by simp [hpc]) rfl
  | waited hpc => exact h.goAttached (by simp [hpc]) rfl

theorem Session.Supervised.step (h : s.Supervised) {e : Event} (hs : s.step e = some s') : s'.Supervised := by
  cases e with
  | answer a =>
      rcases answer_cases hs with hg | hf
      · exact h.goes hg
      · exact h.fails hf
  | exits =>
      cases hs
      exact ⟨⟨fun hl => ⟨by simp, (h.untouched hl).2⟩, by simp, h.attached⟩, h.child, h.handler, h.request⟩
  | ctrlC =>
      rw [Session.step] at hs
      split at hs
      · cases hs
        refine ⟨⟨h.untouched, h.paused, h.attached⟩, h.child, fun hh => ?_, h.request⟩
        by_contra hl
        simp [show s.launched = false by simpa using hl] at hh
      · cases hs
  | interrupts delivered =>
      rw [Session.step] at hs
      split at hs
      · rename_i hh
        cases hs
        have hl : s.launched = true := h.handler hh
        refine ⟨⟨by simp [hl], fun _ hrun => ?_, h.attached⟩, h.child, by simp, h.request⟩
        cases delivered with
        | true => exact .inr (.inr (.inl (by simp)))
        | false => simpa using h.paused hl hrun
      · cases hs

/-! ## The saved profile -/

/-- The profile that an event saves. -/
def Session.saves (s : Session) : Event → List Profile
  | .answer (.done (.ok ())) =>
      match s.pc with
      | .writeProfile profile => [profile]
      | _ => []
  | _ => []

theorem saves_eq_nil {e : Event} (h : ∀ profile, s.pc ≠ .writeProfile profile) : s.saves e = [] := by
  unfold Session.saves
  split
  · split
    · rename_i profile hpc
      exact absurd hpc (h profile)
    · rfl
  · rfl

theorem mem_saves {e : Event} {profile : Profile} (h : profile ∈ s.saves e) : s.pc = .writeProfile profile := by
  unfold Session.saves at h
  split at h
  · split at h
    · rename_i hpc
      rw [List.mem_singleton.mp h]
      exact hpc
    · cases h
  · cases h

/-- What is saved when a call comes next. -/
def Session.Saved (saved : List Profile) (s : Session) : Prop :=
  match s.pc with
  | .writeProfile profile => saved = [] ∧ completeInvocations profile ≠ 0
  | .wait | .returned (.ok ()) => ∃ profile, saved = [profile] ∧ completeInvocations profile ≠ 0
  | .returned (.error _) => saved.length ≤ 1 ∧ ∀ profile ∈ saved, completeInvocations profile ≠ 0
  | _ => saved = []

theorem Session.Saved.length_le {saved : List Profile} (h : s.Saved saved) : saved.length ≤ 1 := by
  unfold Session.Saved at h
  split at h
  · simp [h.1]
  · obtain ⟨profile, rfl, -⟩ := h
    exact le_rfl
  · obtain ⟨profile, rfl, -⟩ := h
    exact le_rfl
  · exact h.1
  · simp [h]

theorem Session.Saved.complete {saved : List Profile} (h : s.Saved saved) :
    ∀ profile ∈ saved, completeInvocations profile ≠ 0 := by
  unfold Session.Saved at h
  split at h
  · simp [h.1]
  · obtain ⟨profile, rfl, hc⟩ := h
    simpa using hc
  · obtain ⟨profile, rfl, hc⟩ := h
    simpa using hc
  · exact h.2
  · simp [h]

theorem length_saves_le (s : Session) (e : Event) : (s.saves e).length ≤ 1 := by
  unfold Session.saves
  split
  · split <;> simp
  · simp

/-- Only a call that writes the profile changes what is saved. -/
theorem Session.Saved.goTo {saved : List Profile} {e : Event} (h : s.Saved saved)
    (hpc : ∀ profile, s.pc ≠ .writeProfile profile)
    (hnext : s.Saved saved → s'.Saved saved) : s'.Saved (saved ++ s.saves e) := by
  rw [saves_eq_nil hpc, List.append_nil]
  exact hnext h

theorem Session.Saved.goes {saved : List Profile} (h : s.Saved saved) (hg : s.Goes a s') :
    s'.Saved (saved ++ s.saves (.answer a)) := by
  cases hg with
  | @written profile hpc =>
      simp only [Session.Saved, hpc] at h
      have hsaved : saved ++ s.saves (.answer (.done (.ok ()))) = [profile] := by
        simp [h.1, Session.saves, hpc]
      rw [hsaved]
      cases hl : s.launched with
      | true => exact ⟨profile, rfl, h.2⟩
      | false => exact ⟨profile, rfl, h.2⟩
  | @attach request _ hpc =>
      refine h.goTo (by simp [hpc]) fun h => ?_
      simp only [Session.Saved, hpc] at h ⊢
      cases request.resumeAfterAttach <;> exact h
  | collected hpc hp =>
      refine h.goTo (by simp [hpc]) fun h => ?_
      simp only [Session.Saved, hpc] at h ⊢
      exact ⟨h, hp⟩
  | waited hpc =>
      refine h.goTo (by simp [hpc]) fun h => ?_
      simpa only [Session.Saved, hpc] using h
  | spawn hpc | stopProcess hpc | waitForStopped hpc | resolve hpc | setHandler hpc | resume hpc | polled hpc
  | drained hpc | gone hpc | alive hpc _ | stops hpc _ | continues hpc _ | interrupted hpc | drains hpc _ =>
      refine h.goTo (by simp [hpc]) fun h => ?_
      simpa only [Session.Saved, hpc] using h

theorem Session.Saved.fails {saved : List Profile} {e : Event} (h : s.Saved saved) (hf : s.Fails s') :
    s'.Saved (saved ++ s.saves e) := by
  have hlen : (saved ++ s.saves e).length ≤ 1 := by
    by_cases hpc : ∃ profile, s.pc = .writeProfile profile
    · obtain ⟨profile, hpc⟩ := hpc
      simp only [Session.Saved, hpc] at h
      rw [h.1, List.nil_append]
      exact length_saves_le s e
    · rw [saves_eq_nil fun profile hp => hpc ⟨profile, hp⟩, List.append_nil]
      exact h.length_le
  have hcomplete : ∀ profile ∈ saved ++ s.saves e, completeInvocations profile ≠ 0 := by
    intro profile hp
    rcases List.mem_append.mp hp with hp | hp
    · exact h.complete profile hp
    · have hpc := mem_saves hp
      simp only [Session.Saved, hpc] at h
      exact h.2
  obtain ⟨e', rfl | ⟨-, rfl⟩⟩ := hf
  · exact ⟨hlen, hcomplete⟩
  · exact ⟨hlen, hcomplete⟩

theorem saved_step {saved : List Profile} {e : Event} (h : s.Saved saved) (hs : s.step e = some s') :
    s'.Saved (saved ++ s.saves e) := by
  obtain ⟨a, rfl, hg | hf⟩ | ⟨he, hl⟩ := step_cases hs
  · exact h.goes hg
  · exact h.fails hf
  · have hsaves : s.saves e = [] := by
      cases e with
      | answer a => cases he
      | exits | ctrlC | interrupts => rfl
    rw [hsaves, List.append_nil]
    unfold Session.Saved
    rw [hl.pc]
    exact h

/-! ## The end of the capture -/

/-- The calls that are left at most when the capture has to end. -/
def Session.callsLeft (s : Session) : Nat :=
  match s.pc with
  | .returned _ => 0
  | .wait => 1
  | .writeProfile _ => 2
  | .collect => 3
  | .drain left => 4 + left
  | .processExists => if s.status = .exited then 8 else 9
  | .loadStopRequested => if s.stopRequested then 8 else 11
  | .poll => 10
  | .resume => 12
  | .attach _ => 13
  | .setHandler _ => 14
  | .resolveProcessIdentity => 15
  | .waitForStopped => 16
  | .stopProcess => 17
  | .spawn _ => 18

theorem processExists_of_fits {text : Except Messages String} (h : s.fits (.answer (.status text)) = true)
    (hpc : s.pc = .processExists) (hx : s.status = .exited) : processExists text.toOption = false := by
  simpa [Session.fits, hpc, hx] using h

theorem exited_of_fits (h : s.fits (.answer a) = true) (hpc : s.pc = .wait) : s.status = .exited := by
  simpa [Session.fits, hpc] using h

theorem callsLeft_goes (he : s.Ended) (hfits : s.fits (.answer a) = true) (hg : s.Goes a s') :
    s'.callsLeft < s.callsLeft := by
  cases hg with
  | @attach request _ hpc =>
      cases hr : request.resumeAfterAttach with
      | true => simp [Session.callsLeft, hpc]
      | false =>
          simp only [Session.callsLeft, hpc, Bool.false_eq_true, if_false]
          split <;> omega
  | alive hpc hexists =>
      have hx : s.status ≠ .exited := fun hx => by
        rw [processExists_of_fits hfits hpc hx] at hexists
        cases hexists
      have hstop : s.stopRequested = true := he.resolve_left hx
      simp [Session.callsLeft, hpc, hx, hstop]
  | gone hpc | resume hpc | polled hpc =>
      simp only [Session.callsLeft, hpc]
      split <;> omega
  | written hpc =>
      cases hl : s.launched <;> simp [Session.callsLeft, hpc]
  | drains hpc hl =>
      simp only [Session.callsLeft, hpc]
      omega
  | drained hpc =>
      simp only [Session.callsLeft, hpc]
      omega
  | stops hpc hs | continues hpc hs => simp [Session.callsLeft, hpc, hs]
  | spawn hpc | stopProcess hpc | waitForStopped hpc | resolve hpc | setHandler hpc | waited hpc | collected hpc _
  | interrupted hpc => simp [Session.callsLeft, hpc]

theorem callsLeft_pos (hpc : ∀ r, s.pc ≠ .returned r) : 0 < s.callsLeft := by
  unfold Session.callsLeft
  cases h : s.pc with
  | returned r => exact absurd h (hpc r)
  | processExists => dsimp only; split <;> omega
  | loadStopRequested => dsimp only; split <;> omega
  | _ => simp

theorem callsLeft_fails (hpc : ∀ r, s.pc ≠ .returned r) (hf : s.Fails s') : s'.callsLeft < s.callsLeft := by
  have hpos := callsLeft_pos hpc
  obtain ⟨e, he⟩ := hf.pc
  rw [Session.callsLeft, he]
  exact hpos

/-- The other parties leave no more calls. -/
theorem callsLeft_leaves (h : s.Leaves s') : s'.callsLeft ≤ s.callsLeft := by
  unfold Session.callsLeft
  rw [h.pc]
  cases s.pc with
  | processExists =>
      dsimp only
      by_cases hx : s.status = .exited
      · rw [if_pos hx, if_pos (h.exited hx)]
      · rw [if_neg hx]
        split <;> omega
  | loadStopRequested =>
      dsimp only
      cases hs : s.stopRequested with
      | true => rw [h.stopRequested hs]
      | false =>
          simp only [Bool.false_eq_true, if_false]
          split <;> omega
  | _ => exact le_rfl

theorem Session.Ended.goes (h : s.Ended) (hg : s.Goes a s') : s'.Ended := by
  cases hg with
  | stopProcess hpc => exact h.imp_left fun hx => by simp [hx, Status.stop]
  | resume hpc => exact h.imp_left fun hx => continue_eq_exited.mpr hx
  | _ => exact h

theorem Session.Ended.step (h : s.Ended) {e : Event} (hfits : s.fits e = true) (hs : s.step e = some s') :
    s'.Ended ∧ s'.callsLeft + (if e.isAnswer then 1 else 0) ≤ s.callsLeft := by
  obtain ⟨a, rfl, hg | hf⟩ | ⟨he, hl⟩ := step_cases hs
  · exact ⟨h.goes hg, callsLeft_goes h hfits hg⟩
  · have hpc : ∀ r, s.pc ≠ .returned r := fun r hr => by
      have hanswer : s.answer a = some s' := hs
      rw [Session.answer_returned hr] at hanswer
      cases hanswer
    refine ⟨?_, callsLeft_fails hpc hf⟩
    rw [Session.Ended, hf.status, hf.stopRequested]
    exact h
  · rw [he]
    exact ⟨Or.imp hl.exited hl.stopRequested h, callsLeft_leaves hl⟩

/-- No more than the three polls are left behind the loop. -/
def Session.Drains (s : Session) : Prop := ∀ left, s.pc = .drain left → left ≤ 3

theorem Session.Drains.step (h : s.Drains) {e : Event} (hs : s.step e = some s') : s'.Drains := by
  intro left hleft
  obtain ⟨a, rfl, hg | hf⟩ | ⟨-, hl⟩ := step_cases hs
  · cases hg with
    | @drains left' _ hpc _ =>
        have := h left' hpc
        cases hleft
        omega
    | gone | stops | interrupted =>
        cases hleft
        exact le_rfl
    | @attach request _ _ =>
        cases hr : request.resumeAfterAttach <;> simp [hr] at hleft
    | written => cases hl : s.launched <;> simp [hl] at hleft
    | _ => cases hleft
  · obtain ⟨e, he⟩ := hf.pc
    rw [he] at hleft
    cases hleft
  · exact h left (hl.pc ▸ hleft)

theorem Session.Drains.callsLeft_le (h : s.Drains) : s.callsLeft ≤ 18 := by
  unfold Session.callsLeft
  cases hpc : s.pc with
  | drain left =>
      have := h left hpc
      dsimp only
      omega
  | processExists => dsimp only; split <;> omega
  | loadStopRequested => dsimp only; split <;> omega
  | _ => simp

/-- A process that has exited does not come back. -/
theorem exited_step {e : Event} (h : s.status = .exited) (hs : s.step e = some s') : s'.status = .exited := by
  obtain ⟨a, rfl, hg | hf⟩ | ⟨-, hl⟩ := step_cases hs
  · cases hg with
    | stopProcess => simp [h, Status.stop]
    | resume => exact continue_eq_exited.mpr h
    | _ => exact h
  · exact hf.status.trans h
  · exact hl.exited h

theorem Session.Returned.step (h : s.Returned) {e : Event} (hs : s.step e = some s') : s'.Returned := by
  obtain ⟨r, hr⟩ := h
  cases e with
  | answer a =>
      rw [Session.step, Session.answer_returned hr] at hs
      cases hs
  | exits | ctrlC | interrupts => exact ⟨r, (leaves_step hs (by simp)).pc.trans hr⟩

/-- A success of a launch comes behind the exit of the child. -/
def Session.Outlives (s : Session) : Prop := s.launched = true → s.pc = .returned (.ok ()) → s.status = .exited

theorem Session.Outlives.step (h : s.Outlives) {e : Event} (hfits : s.fits e = true) (hs : s.step e = some s') :
    s'.Outlives := by
  intro hl hpc
  obtain ⟨a, rfl, hg | hf⟩ | ⟨-, hleaves⟩ := step_cases hs
  · cases hg with
    | waited hwait =>
        have hx : s.status = .exited := exited_of_fits hfits hwait
        exact hx
    | written => simp [show s.launched = true from hl] at hpc
    | @attach request _ _ => cases hr : request.resumeAfterAttach <;> simp [hr] at hpc
    | _ => cases hpc
  · obtain ⟨e, he⟩ := hf.pc
    rw [he] at hpc
    cases hpc
  · exact hleaves.exited (h (hleaves.launched ▸ hl) (hleaves.pc ▸ hpc))

/-! ## The first call -/

section Start

variable {demangle : String → Option String} {read : String → Except Messages ElfFile} {args : ProfileArgs}

/-- In front of the first call nothing has been done. -/
theorem start_fresh (h : Session.start demangle read args = .ok s) :
    ((∃ program, s.pc = .spawn program) ∨ s.pc = .resolveProcessIdentity) ∧ s.launched = false ∧
      s.status = .running ∧ s.resumed = false ∧ s.killed = false ∧ s.interrupted = false ∧ s.handler = .missing := by
  simp only [Session.start, Lib.bind_eq_ok] at h
  obtain ⟨⟨runningPid, module, launchProgram⟩, -, _, -, _, -, h⟩ := h
  cases h
  cases launchProgram with
  | none => simp
  | some program => simp

theorem supervised_start (h : Session.start demangle read args = .ok s) : s.Supervised := by
  obtain ⟨hpc, hfresh⟩ := start_fresh h
  refine ⟨⟨fun _ => ?_, fun hl => ?_, fun hr => ?_⟩, fun hc => ?_, fun hh => ?_, fun request hr => ?_⟩
  · simp [hfresh]
  · simp [hfresh] at hl
  · simp [hfresh] at hr
  · rcases hpc with ⟨program, hpc⟩ | hpc <;> simp [hpc, Pc.needsChild] at hc
  · simp [hfresh] at hh
  · rcases hpc with ⟨program, hpc⟩ | hpc <;> simp [hpc] at hr

theorem saved_start (h : Session.start demangle read args = .ok s) : s.Saved [] := by
  rcases (start_fresh h).1 with ⟨program, hpc⟩ | hpc <;> simp [Session.Saved, hpc]

theorem drains_start (h : Session.start demangle read args = .ok s) : s.Drains := by
  rcases (start_fresh h).1 with ⟨program, hpc⟩ | hpc <;> simp [Session.Drains, hpc]

theorem outlives_start (h : Session.start demangle read args = .ok s) : s.Outlives := by
  intro hl
  rw [(start_fresh h).2.1] at hl
  cases hl

end Start

end SliceProfiler.Cli
