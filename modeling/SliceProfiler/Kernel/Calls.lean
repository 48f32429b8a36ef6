import SliceProfiler.Kernel.Slice

/-!
# Calls of the selected function

The entry and return programs under threads that call the selected function and return from it. The
calls of a thread are well nested, and each probe on a thread is later than the one before.
-/

namespace SliceProfiler

open Lib

/-- An activation of the selected function. `id` is the id under which its entry made it active, when it
found no active invocation on the thread. -/
structure Call where
  tid : Nat
  enterNs : Nat
  id : Option Nat
deriving DecidableEq

/-- The kernel side and what the threads did so far: the open calls of each thread, innermost first, all
calls, and the calls that returned with their instants. `clock` is the first free instant of a thread. -/
structure World where
  kernel : Kernel := {}
  callStack : Nat → List Call := fun _ => []
  entered : List Call := []
  returned : List (Call × Nat) := []
  clock : Nat → Nat := fun _ => 0

inductive Probe where
  | call (ctx : EntryContext)
  | ret (ctx : ProbeContext)
deriving DecidableEq

def Probe.context : Probe → ProbeContext
  | .call ctx => ctx.toProbeContext
  | .ret ctx => ctx

namespace World

def callOf (w : World) (ctx : EntryContext) : Call :=
  ⟨ctx.tid, ctx.now, if (w.kernel.activeByTid.lookup ctx.tid).isNone && ctx.updated then
    some (w.kernel.nextInvocationId + 1) else none⟩

def enter (config : SliceConfig) (w : World) (ctx : EntryContext) : World :=
  { w with
    kernel := w.kernel.sliceEntry config ctx
    callStack := Function.update w.callStack ctx.tid (w.callOf ctx :: w.callStack ctx.tid)
    entered := w.callOf ctx :: w.entered
    clock := Function.update w.clock ctx.tid (ctx.now + 1) }

def leave (w : World) (c : Call) (rest : List Call) (ctx : ProbeContext) : World :=
  { w with
    kernel := w.kernel.sliceReturn ctx
    callStack := Function.update w.callStack ctx.tid rest
    returned := (c, ctx.now) :: w.returned
    clock := Function.update w.clock ctx.tid (ctx.now + 1) }

/-- A call is always possible; a return leaves the innermost open call of its thread. -/
def step (config : SliceConfig) (w : World) (p : Probe) : Option World :=
  if w.clock p.context.tid ≤ p.context.now then
    match p with
    | .call ctx => some (w.enter config ctx)
    | .ret ctx =>
        match w.callStack ctx.tid with
        | [] => none
        | c :: rest => some (w.leave c rest ctx)
  else none

/-- What a step can do. -/
inductive Steps (config : SliceConfig) (w : World) : Probe → World → Prop where
  | call {ctx : EntryContext} (hnow : w.clock ctx.tid ≤ ctx.now) : Steps config w (.call ctx) (w.enter config ctx)
  | ret {ctx : ProbeContext} {c : Call} {rest : List Call} (hnow : w.clock ctx.tid ≤ ctx.now)
      (hstack : w.callStack ctx.tid = c :: rest) : Steps config w (.ret ctx) (w.leave c rest ctx)

theorem steps_of_step {config : SliceConfig} {w w' : World} {p : Probe} (h : w.step config p = some w') :
    w.Steps config p w' := by
  unfold step at h
  split at h
  · rename_i hnow
    cases p with
    | call ctx => cases h; exact .call hnow
    | ret ctx =>
        cases hs : w.callStack ctx.tid with
        | nil => simp [hs] at h
        | cons c rest =>
            simp only [hs, Option.some.injEq] at h
            subst h
            exact .ret hnow hs
  · cases h

end World

end SliceProfiler
