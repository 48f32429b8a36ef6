import SliceProfiler.Capture.Replay
import SliceProfiler.Lib.Bytes

/-!
# The ring buffer

The bytes of the records and of the stack traces, and what user space makes of them. The target is a little-endian
machine.
-/

namespace SliceProfiler

open Lib

/-! ## Bytes -/

/-- `struct slice_event` -/
def Event.toBytes (e : Event) : List UInt8 :=
  toLittleEndian 4 e.kind ++ (toLittleEndian 4 e.tid ++ (toLittleEndian 8 e.timestampNs ++
    (toLittleEndian 8 e.invocationId ++ (toLittleEndian 4 (toWord32 e.stackId) ++
      (toLittleEndian 4 e.cpu ++ toLittleEndian 8 e.weightNs)))))

/-- `size_of::<Event>()` -/
def eventSize : Nat := 40

/-- The number in `bytes[start..stop]`. -/
def readField (bytes : List UInt8) (start stop : Nat) : Nat :=
  ofLittleEndian ((bytes.drop start).take (stop - start))

def readEvent (bytes : List UInt8) : Event where
  kind := readField bytes 0 4
  tid := readField bytes 4 8
  timestampNs := readField bytes 8 16
  invocationId := readField bytes 16 24
  stackId := ofWord32 (readField bytes 24 28)
  cpu := readField bytes 28 32
  weightNs := readField bytes 32 40

/-- The fields have the values of their types. -/
structure Event.Fits (e : Event) : Prop where
  kind : e.kind ≤ u32Max
  tid : e.tid ≤ u32Max
  timestampNs : e.timestampNs ≤ u64Max
  invocationId : e.invocationId ≤ u64Max
  stackId : -0x80000000 ≤ e.stackId ∧ e.stackId < 0x80000000
  cpu : e.cpu ≤ u32Max
  weightNs : e.weightNs ≤ u64Max

instance : DecidablePred Event.Fits := fun e =>
  decidable_of_iff (e.kind ≤ u32Max ∧ e.tid ≤ u32Max ∧ e.timestampNs ≤ u64Max ∧ e.invocationId ≤ u64Max ∧
      (-0x80000000 ≤ e.stackId ∧ e.stackId < 0x80000000) ∧ e.cpu ≤ u32Max ∧ e.weightNs ≤ u64Max)
    ⟨fun ⟨h₁, h₂, h₃, h₄, h₅, h₆, h₇⟩ => ⟨h₁, h₂, h₃, h₄, h₅, h₆, h₇⟩,
      fun ⟨h₁, h₂, h₃, h₄, h₅, h₆, h₇⟩ => ⟨h₁, h₂, h₃, h₄, h₅, h₆, h₇⟩⟩

/-- A value of `stack_traces`: the addresses of a stack, and zeros behind them. -/
def traceBytes (addresses : List Nat) : List UInt8 :=
  ((addresses ++ List.replicate (127 - addresses.length) 0).map (toLittleEndian 8)).flatten

def readAddresses (raw : List UInt8) : List Nat :=
  ((chunksExact 8 raw).map ofLittleEndian).takeWhile fun address => address != 0

/-! ## The callback -/

/-- A record, and what the lookup of its stack gives. -/
structure Delivery where
  bytes : List UInt8
  raw : Option (List UInt8)
  bounded : raw.isSome = true → (readEvent bytes).stackId < 32768

def StackStore.insertStack (store : StackStore) (stackId : Int) (h : 0 ≤ stackId ∧ stackId < 32768)
    (addresses : List Nat) :
    StackStore where
  addresses := store.addresses.insert stackId addresses
  bounded := by
    intro k hk
    rw [AList.keys_insert, List.mem_cons] at hk
    rcases hk with rfl | hk
    · exact h
    · exact store.bounded k (List.mem_of_mem_erase hk)

/-- `events_seen` and `stacks` -/
structure Ring where
  events : List Event := []
  stackStore : StackStore := ⟨∅, by simp⟩

def Ring.callback (r : Ring) (d : Delivery) : Ring :=
  if d.bytes.length ≠ eventSize then r
  else
    let event := readEvent d.bytes
    let stackStore :=
      if h : 0 ≤ event.stackId then
        match hr : d.raw with
        | some raw => r.stackStore.insertStack event.stackId ⟨h, d.bounded (by rw [hr]; rfl)⟩ (readAddresses raw)
        | none => r.stackStore
      else r.stackStore
    ⟨r.events ++ [event], stackStore⟩

/-- The callbacks of a capture in their order. -/
def Ring.drain (deliveries : List Delivery) : Ring := deliveries.foldl Ring.callback {}

/-! ## What the kernel side delivers -/

/-- The stack traces of the kernel. No trace is empty of its own: it ends at the first zero. -/
structure StackTraces extends StackStore where
  traces : ∀ stackId trace, addresses.lookup stackId = some trace →
    trace.length ≤ 127 ∧ ∀ address ∈ trace, address ≠ 0 ∧ address ≤ u64Max

/-- The record of the event, with the stack that the kernel recorded for it. -/
structure StackTraces.Delivers (traces : StackTraces) (e : Event) (d : Delivery) : Prop where
  bytes : d.bytes = e.toBytes
  raw : d.raw = (traces.addresses.lookup e.stackId).map traceBytes

end SliceProfiler
