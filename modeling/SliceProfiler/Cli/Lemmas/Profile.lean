import SliceProfiler.Cli.Profile
import SliceProfiler.Lib.Runs

/-!
# What `profile` has done to the child at each call

The invariant goes by the call whose result comes next: which of the signals were sent, and what is known of the child.
The other parties keep it, since they never stop the child and never take a request to stop back.
-/

namespace SliceProfiler.Cli

/-- Up to the resumption no signal but the stop was sent by `profile`. -/
structure Session.Held (s : Session) : Prop where
  resumed : s.resumed = false
  killed : s.killed = false

/-- A child runs, and nothing is going to stop it again. -/
structure Session.Released (s : Session) : Prop where
  resumed : s.launched = true → s.resumed = true
  status : s.launched = true → s.status ≠ .stopped
  killed : s.killed = false

/-- The invariant of a session, call by call. -/
def Session.Sound (s : Session) : Prop :=
  match s.pc with
  | .spawn _ => s.Held ∧ s.launched = false
  | .stopProcess | .waitForStopped | .resolveProcessIdentity | .setHandler _ | .resume => s.Held
  | .attach request => s.Held ∧ request.resumeAfterAttach = s.launched
  | .processExists | .loadStopRequested | .poll | .drain _ | .collect | .writeProfile _ | .wait => s.Released
  | .returned _ => s.NoOrphan

variable {s s' : Session} {e : Messages} {pc : Pc}

theorem Session.Sound.noOrphan (h : s.Sound) : s.NoOrphan := by
  intro e he
  rw [Session.Sound, he] at h
  exact h e he

theorem continue_ne_stopped (status : Status) : status.continue ≠ .stopped := by
  cases status <;> simp [Status.continue]

theorem continue_eq_exited {status : Status} : status.continue = .exited ↔ status = .exited := by
  cases status <;> simp [Status.continue]

/-! ## Returns -/

theorem noOrphan_of_ok {r : Unit} (h : s.pc = .returned (.ok r)) : s.NoOrphan := by
  intro e he
  rw [h] at he
  cases he

theorem noOrphan_fail_killChild (s : Session) (e : Messages) : (s.killChild.fail e).NoOrphan := by
  intro _ _ hl
  have hk : (s.killChild.fail e).killed = true := by
    change (s.killed || s.launched) = true
    rw [show s.launched = true from hl, Bool.or_true]
  exact ⟨.inl hk, fun _ => hk⟩

/-- An error return without a kill leaves no orphan exactly when the child was resumed and is gone or interrupted. -/
theorem noOrphan_fail_iff (hl : s.launched = true) (hk : s.killed = false) :
    (s.fail e).NoOrphan ↔
      (s.resumed = true ∧ (s.status = .exited ∨ s.interrupted = true)) ∧ s.status ≠ .stopped := by
  constructor
  · intro h
    have h := h e rfl hl
    simpa [Session.fail, hk] using h
  · intro h _ _ _
    exact ⟨.inr h.1, fun hs => absurd hs h.2⟩

theorem noOrphan_of_not_launched (hl : s.launched = false) : s.NoOrphan := by
  intro _ _ hl'
  rw [hl] at hl'
  cases hl'

theorem Session.Held.noOrphan_fail_iff (h : s.Held) : (s.fail e).NoOrphan ↔ s.launched = false := by
  cases hl : s.launched with
  | false => simp [noOrphan_of_not_launched (s := s.fail e) hl]
  | true => simp [Cli.noOrphan_fail_iff hl h.killed, h.resumed]

/-- After the capture an error return leaves no orphan exactly when the child has been interrupted or has exited. -/
theorem Session.Released.noOrphan_fail_iff (h : s.Released) :
    (s.fail e).NoOrphan ↔ (s.launched = true → s.Reached) := by
  cases hl : s.launched with
  | false => simp [noOrphan_of_not_launched (s := s.fail e) hl]
  | true =>
      rw [Cli.noOrphan_fail_iff hl h.killed]
      simp [h.resumed hl, h.status hl, Session.Reached, or_comm]

/-! ## Steps of the other parties -/

/-- The process only exits or goes on, and requests and interrupts only come in. -/
structure Session.Leaves (s s' : Session) : Prop where
  pc : s'.pc = s.pc
  launched : s'.launched = s.launched
  resumed : s'.resumed = s.resumed
  killed : s'.killed = s.killed
  stopped : s'.status = .stopped → s.status = .stopped
  exited : s.status = .exited → s'.status = .exited
  stopRequested : s.stopRequested = true → s'.stopRequested = true
  interrupted : s.interrupted = true → s'.interrupted = true

theorem Session.Leaves.noOrphan (h : s.Leaves s') (hs : s.NoOrphan) : s'.NoOrphan := by
  intro e he hl
  obtain ⟨hend, hstop⟩ := hs e (h.pc ▸ he) (h.launched ▸ hl)
  rw [h.killed, h.resumed]
  refine ⟨?_, fun hstatus => hstop (h.stopped hstatus)⟩
  rcases hend with hk | ⟨hr, hx | hi⟩
  · exact .inl hk
  · exact .inr ⟨hr, .inl (h.exited hx)⟩
  · exact .inr ⟨hr, .inr (h.interrupted hi)⟩

theorem Session.Leaves.sound (h : s.Leaves s') (hs : s.Sound) : s'.Sound := by
  have hheld : s.Held → s'.Held := fun hh => ⟨h.resumed.trans hh.resumed, h.killed.trans hh.killed⟩
  have hreleased : s.Released → s'.Released := fun hr =>
    ⟨fun hl => h.resumed.trans (hr.resumed (h.launched ▸ hl)),
      fun hl hstop => hr.status (h.launched ▸ hl) (h.stopped hstop), h.killed.trans hr.killed⟩
  rw [Session.Sound] at hs ⊢
  rw [h.pc]
  cases hpc : s.pc with
  | spawn program =>
      rw [hpc] at hs
      exact ⟨hheld hs.1, h.launched.trans hs.2⟩
  | stopProcess | waitForStopped | resolveProcessIdentity | setHandler | resume =>
      rw [hpc] at hs
      exact hheld hs
  | attach request =>
      rw [hpc] at hs
      exact ⟨hheld hs.1, hs.2.trans h.launched.symm⟩
  | processExists | loadStopRequested | poll | drain | collect | writeProfile | wait =>
      rw [hpc] at hs
      exact hreleased hs
  | returned r =>
      rw [hpc] at hs
      exact h.noOrphan hs

theorem leaves_step {e : Event} (h : s.step e = some s') (he : ∀ a, e ≠ .answer a) : s.Leaves s' := by
  cases e with
  | answer a => exact absurd rfl (he a)
  | exits =>
      cases h
      exact ⟨rfl, rfl, rfl, rfl, by simp, fun _ => rfl, id, id⟩
  | ctrlC =>
      rw [Session.step] at h
      split at h
      · cases h
        exact ⟨rfl, rfl, rfl, rfl, id, id, fun _ => rfl, id⟩
      · cases h
  | interrupts delivered =>
      rw [Session.step] at h
      split at h
      · cases h
        refine ⟨rfl, rfl, rfl, rfl, fun hs => ?_, fun hs => ?_, id, fun hi => by simp [hi]⟩
        · cases delivered with
          | false => exact hs
          | true => exact absurd hs (continue_ne_stopped _)
        · cases delivered with
          | false => exact hs
          | true => exact continue_eq_exited.mpr hs
      · cases h

/-! ## Results of calls -/

section Answers

variable {a : Answer} {α : Type} {r : Except Messages α} {next : α → Session}

@[simp] theorem isOk_context (message : String) (r : Except Messages α) : (context message r).isOk = r.isOk := by
  cases r <;> rfl

@[simp] theorem isOk_portError (r : Except Messages α) : (portError r).isOk = r.isOk := by
  cases r <;> rfl

theorem isOk_checkProfile (p : Profile) : (checkProfile p).isOk = true ↔ completeInvocations p ≠ 0 := by
  by_cases h : completeInvocations p = 0 <;> simp [checkProfile, h, Except.isOk, Except.toBool]

/-- The result of a call keeps the invariant when the step is clean, and the step is clean when it leaves no orphan. -/
structure Session.Follows (s : Session) (a : Answer) (s' : Session) : Prop where
  sound : s.Clean (.answer a) → s'.Sound
  clean : s'.NoOrphan → s.Clean (.answer a)

/-- The calls after which an error return may send no kill to a child. -/
def Pc.mayLeave : Pc → Bool
  | .resolveProcessIdentity | .collect | .wait => true
  | _ => false

theorem clean_of_not_mayLeave {e : Event} (h : s.pc.mayLeave = false) : s.Clean e := by
  refine ⟨fun _ hpc => ?_, fun _ hpc => ?_, fun _ hpc => ?_⟩
  all_goals rw [hpc] at h; cases h

theorem follows_of_sound (hc : s.Clean (.answer a)) (h : s'.Sound) : s.Follows a s' := ⟨fun _ => h, fun _ => hc⟩

theorem follows_orKill (hc : s.Clean (.answer a)) (h : ∀ v, r = .ok v → (next v).Sound) :
    s.Follows a (s.orKill r next) := by
  refine follows_of_sound hc ?_
  cases r with
  | ok v => exact h v rfl
  | error e => exact noOrphan_fail_killChild s e

theorem follows_orFail (hok : r.isOk = true → s.Clean (.answer a)) (h : ∀ v, r = .ok v → (next v).Sound)
    (hc : r.isOk = false → ∀ e, (s.fail e).NoOrphan ↔ s.Clean (.answer a)) : s.Follows a (s.orFail r next) := by
  cases r with
  | ok v => exact follows_of_sound (hok rfl) (h v rfl)
  | error e => exact ⟨(hc rfl e).mpr, (hc rfl e).mp⟩

/-! ### Before the capture -/

theorem follows_spawn {program : String} (hpc : s.pc = .spawn program) (h : s.Sound) (hs : s.answer a = some s') :
    s.Follows a s' := by
  rw [Session.Sound, hpc] at h
  unfold Session.answer at hs
  rw [hpc] at hs
  have hclean : s.Clean (.answer a) := clean_of_not_mayLeave (by rw [hpc]; rfl)
  cases a with
  | spawned r =>
      cases hs
      exact follows_orFail (fun _ => hclean) (fun _ _ => ⟨h.1.resumed, h.1.killed⟩) fun _ _ =>
        iff_of_true (noOrphan_of_not_launched h.2) hclean
  | _ => cases hs

theorem follows_stopProcess (hpc : s.pc = .stopProcess) (h : s.Sound) (hs : s.answer a = some s') : s.Follows a s' := by
  rw [Session.Sound, hpc] at h
  unfold Session.answer at hs
  rw [hpc] at hs
  cases a with
  | done r =>
      cases hs
      exact follows_orKill (clean_of_not_mayLeave (by rw [hpc]; rfl)) fun _ _ => ⟨h.resumed, h.killed⟩
  | _ => cases hs

theorem follows_waitForStopped (hpc : s.pc = .waitForStopped) (h : s.Sound) (hs : s.answer a = some s') :
    s.Follows a s' := by
  rw [Session.Sound, hpc] at h
  unfold Session.answer at hs
  rw [hpc] at hs
  cases a with
  | done r =>
      cases hs
      exact follows_orKill (clean_of_not_mayLeave (by rw [hpc]; rfl)) fun _ _ => ⟨h.resumed, h.killed⟩
  | _ => cases hs

/-- The error return in front of the resumption that sends no kill. -/
theorem follows_resolveProcessIdentity (hpc : s.pc = .resolveProcessIdentity) (h : s.Sound)
    (hs : s.answer a = some s') : s.Follows a s' := by
  rw [Session.Sound, hpc] at h
  unfold Session.answer at hs
  rw [hpc] at hs
  cases a with
  | status text =>
      cases hs
      have hclean : s.Clean (.answer (.status text)) ↔
          (s.launched = true → (resolveProcessIdentity s.pid text).isOk = true) := by
        refine ⟨fun hc hl => hc.resolved hl hpc _ rfl, fun hc => ⟨?_, by simp [hpc], by simp [hpc]⟩⟩
        rintro hl - _ ⟨⟩
        exact hc hl
      refine follows_orFail (fun hok => ?_) (fun _ _ => ⟨h.resumed, h.killed⟩) fun hok e => ?_
      · rw [isOk_context, isOk_portError] at hok
        exact hclean.mpr fun _ => hok
      · rw [isOk_context, isOk_portError] at hok
        rw [h.noOrphan_fail_iff, hclean, hok]
        simp
  | _ => cases hs

theorem follows_setHandler {target : ProcessIdentity} (hpc : s.pc = .setHandler target) (h : s.Sound)
    (hs : s.answer a = some s') : s.Follows a s' := by
  rw [Session.Sound, hpc] at h
  unfold Session.answer at hs
  rw [hpc] at hs
  cases a with
  | done r =>
      cases hs
      exact follows_orKill (clean_of_not_mayLeave (by rw [hpc]; rfl)) fun _ _ => ⟨⟨h.resumed, h.killed⟩, rfl⟩
  | _ => cases hs

/-! ### The capture -/

theorem follows_attach {request : CaptureRequest} (hpc : s.pc = .attach request) (h : s.Sound)
    (hs : s.answer a = some s') : s.Follows a s' := by
  rw [Session.Sound, hpc] at h
  unfold Session.answer at hs
  rw [hpc] at hs
  cases a with
  | done r =>
      cases hs
      refine follows_orKill (clean_of_not_mayLeave (by rw [hpc]; rfl)) fun _ _ => ?_
      rw [h.2, Session.Sound]
      cases hl : s.launched with
      | true => exact ⟨h.1.resumed, h.1.killed⟩
      | false => exact ⟨by simp, by simp, h.1.killed⟩
  | _ => cases hs

theorem follows_resume (hpc : s.pc = .resume) (h : s.Sound) (hs : s.answer a = some s') : s.Follows a s' := by
  rw [Session.Sound, hpc] at h
  unfold Session.answer at hs
  rw [hpc] at hs
  cases a with
  | done r =>
      cases hs
      exact follows_orKill (clean_of_not_mayLeave (by rw [hpc]; rfl)) fun _ _ =>
        ⟨fun _ => rfl, fun _ => continue_ne_stopped _, h.killed⟩
  | _ => cases hs

/-- Whatever the status file says, no signal is sent. -/
theorem follows_processExists (hpc : s.pc = .processExists) (h : s.Sound) (hs : s.answer a = some s') :
    s.Follows a s' := by
  rw [Session.Sound, hpc] at h
  unfold Session.answer at hs
  rw [hpc] at hs
  cases a with
  | status text =>
      cases hs
      refine follows_of_sound (clean_of_not_mayLeave (by rw [hpc]; rfl)) ?_
      rw [Session.Sound]
      cases processExists text.toOption with
      | true => exact ⟨h.resumed, h.status, h.killed⟩
      | false => exact ⟨h.resumed, h.status, h.killed⟩
  | _ => cases hs

theorem follows_loadStopRequested (hpc : s.pc = .loadStopRequested) (h : s.Sound) (hs : s.answer a = some s') :
    s.Follows a s' := by
  rw [Session.Sound, hpc] at h
  unfold Session.answer at hs
  rw [hpc] at hs
  cases a with
  | seen =>
      cases hs
      refine follows_of_sound (clean_of_not_mayLeave (by rw [hpc]; rfl)) ?_
      rw [Session.Sound]
      cases s.stopRequested with
      | true => exact ⟨h.resumed, h.status, h.killed⟩
      | false => exact ⟨h.resumed, h.status, h.killed⟩
  | _ => cases hs

theorem follows_poll (hpc : s.pc = .poll) (h : s.Sound) (hs : s.answer a = some s') : s.Follows a s' := by
  rw [Session.Sound, hpc] at h
  unfold Session.answer at hs
  rw [hpc] at hs
  cases a with
  | polled r =>
      cases hs
      refine follows_orKill (clean_of_not_mayLeave (by rw [hpc]; rfl)) fun more _ => ?_
      rw [Session.Sound]
      cases more with
      | true => exact ⟨h.resumed, h.status, h.killed⟩
      | false => exact ⟨h.resumed, h.status, h.killed⟩
  | _ => cases hs

theorem follows_drain {left : Nat} (hpc : s.pc = .drain left) (h : s.Sound) (hs : s.answer a = some s') :
    s.Follows a s' := by
  rw [Session.Sound, hpc] at h
  unfold Session.answer at hs
  rw [hpc] at hs
  cases a with
  | polled r =>
      cases hs
      refine follows_orKill (clean_of_not_mayLeave (by rw [hpc]; rfl)) fun more _ => ?_
      rw [Session.Sound]
      cases more && decide (1 < left) with
      | true => exact ⟨h.resumed, h.status, h.killed⟩
      | false => exact ⟨h.resumed, h.status, h.killed⟩
  | _ => cases hs

/-! ### After the capture -/

theorem follows_collect (hpc : s.pc = .collect) (h : s.Sound) (hs : s.answer a = some s') : s.Follows a s' := by
  rw [Session.Sound, hpc] at h
  unfold Session.answer at hs
  rw [hpc] at hs
  cases a with
  | collected profile =>
      cases hs
      have hclean : s.Clean (.answer (.collected profile)) ↔
          (s.launched = true → completeInvocations profile = 0 → s.Reached) := by
        refine ⟨fun hc hl => hc.collected hl hpc _ rfl, fun hc => ⟨by simp [hpc], ?_, by simp [hpc]⟩⟩
        rintro hl - _ ⟨⟩
        exact hc hl
      refine follows_orFail (fun hok => ?_) (fun _ _ => ⟨h.resumed, h.status, h.killed⟩) fun hok e => ?_
      · exact hclean.mpr fun _ hzero => absurd hzero ((isOk_checkProfile profile).mp hok)
      · have hzero : completeInvocations profile = 0 := by
          by_contra hne
          rw [(isOk_checkProfile profile).mpr hne] at hok
          cases hok
        rw [h.noOrphan_fail_iff, hclean]
        simp [hzero]
  | _ => cases hs

theorem follows_writeProfile {profile : Profile} (hpc : s.pc = .writeProfile profile) (h : s.Sound)
    (hs : s.answer a = some s') : s.Follows a s' := by
  rw [Session.Sound, hpc] at h
  unfold Session.answer at hs
  rw [hpc] at hs
  cases a with
  | done r =>
      cases hs
      refine follows_orKill (clean_of_not_mayLeave (by rw [hpc]; rfl)) fun _ _ => ?_
      rw [Session.Sound]
      cases hl : s.launched with
      | true => exact ⟨fun _ => h.resumed hl, fun _ => h.status hl, h.killed⟩
      | false => exact noOrphan_of_ok rfl
  | _ => cases hs

theorem follows_wait (hpc : s.pc = .wait) (h : s.Sound) (hs : s.answer a = some s') : s.Follows a s' := by
  rw [Session.Sound, hpc] at h
  unfold Session.answer at hs
  rw [hpc] at hs
  cases a with
  | done r =>
      cases hs
      have hclean : s.Clean (.answer (.done r)) ↔ (s.launched = true → r.isOk = false → s.Reached) := by
        refine ⟨fun hc hl => hc.waited hl hpc _ rfl, fun hc => ⟨by simp [hpc], by simp [hpc], ?_⟩⟩
        rintro hl - _ ⟨⟩
        exact hc hl
      refine follows_orFail (fun hok => ?_) (fun _ _ => noOrphan_of_ok rfl) fun hok e => ?_
      · rw [isOk_context] at hok
        exact hclean.mpr fun _ hfalse => absurd (hok.symm.trans hfalse) (by simp)
      · rw [isOk_context] at hok
        rw [h.noOrphan_fail_iff, hclean]
        simp [hok]
  | _ => cases hs

theorem follows_answer (h : s.Sound) (hs : s.answer a = some s') : s.Follows a s' := by
  cases hpc : s.pc with
  | spawn program => exact follows_spawn hpc h hs
  | stopProcess => exact follows_stopProcess hpc h hs
  | waitForStopped => exact follows_waitForStopped hpc h hs
  | resolveProcessIdentity => exact follows_resolveProcessIdentity hpc h hs
  | setHandler target => exact follows_setHandler hpc h hs
  | attach request => exact follows_attach hpc h hs
  | resume => exact follows_resume hpc h hs
  | processExists => exact follows_processExists hpc h hs
  | loadStopRequested => exact follows_loadStopRequested hpc h hs
  | poll => exact follows_poll hpc h hs
  | drain left => exact follows_drain hpc h hs
  | collect => exact follows_collect hpc h hs
  | writeProfile profile => exact follows_writeProfile hpc h hs
  | wait => exact follows_wait hpc h hs
  | returned r =>
      rw [Session.answer_returned hpc] at hs
      cases hs

theorem clean_of_answer_eq_none (h : s.answer a = none) : s.Clean (.answer a) := by
  refine ⟨?_, ?_, ?_⟩
  · rintro - hpc text ⟨⟩
    simp [Session.answer, hpc] at h
  · rintro - hpc profile ⟨⟩
    simp [Session.answer, hpc] at h
  · rintro - hpc r ⟨⟩
    simp [Session.answer, hpc] at h

end Answers

/-! ## Runs -/

theorem clean_of_not_answer {e : Event} (he : ∀ a, e ≠ .answer a) : s.Clean e :=
  ⟨fun _ _ _ h => absurd h (he _), fun _ _ _ h => absurd h (he _), fun _ _ _ h => absurd h (he _)⟩

theorem sound_step {e : Event} (h : s.Sound) (hc : s.Clean e) (hs : s.step e = some s') : s'.Sound := by
  cases e with
  | answer a => exact (follows_answer h hs).sound hc
  | exits => exact (leaves_step hs (by simp)).sound h
  | ctrlC => exact (leaves_step hs (by simp)).sound h
  | interrupts delivered => exact (leaves_step hs (by simp)).sound h

theorem clean_of_noOrphan {e : Event} (h : s.Sound) (hs : ∀ s', s.step e = some s' → s'.NoOrphan) : s.Clean e := by
  cases e with
  | answer a =>
      cases hanswer : s.answer a with
      | none => exact clean_of_answer_eq_none hanswer
      | some s' => exact (follows_answer h hanswer).clean (hs s' hanswer)
  | exits => exact clean_of_not_answer (by simp)
  | ctrlC => exact clean_of_not_answer (by simp)
  | interrupts delivered => exact clean_of_not_answer (by simp)

theorem sound_start {demangle : String → Option String} {read : String → Except Messages ElfFile} {args : ProfileArgs}
    (h : Session.start demangle read args = .ok s) : s.Sound := by
  simp only [Session.start, Lib.bind_eq_ok] at h
  obtain ⟨⟨runningPid, module, launchProgram⟩, -, _, -, _, -, h⟩ := h
  cases h
  cases launchProgram with
  | none => exact ⟨rfl, rfl⟩
  | some program => exact ⟨⟨rfl, rfl⟩, rfl⟩

end SliceProfiler.Cli
