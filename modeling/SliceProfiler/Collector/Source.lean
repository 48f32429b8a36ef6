import Mathlib.Data.Finset.Basic
import SliceProfiler.Collector.Correlator
import SliceProfiler.Lib.Prefix

/-!
# What a sequence of events says of an identity
-/

namespace SliceProfiler

open Lib

/-- The content of an entry or of a return. -/
structure Boundary where
  functionId : Nat
  tid : Nat
  timestampNs : Nat
deriving DecidableEq

def CollectorEvent.invocationId : CollectorEvent → Option Nat
  | .entry id _ _ _ | .ret id _ _ _ | .sample id _ => id
  | _ => none

variable (i : Nat)

def CollectorEvent.entryOf : CollectorEvent → Option Boundary
  | .entry (some id) functionId tid timestampNs => if id = i then some ⟨functionId, tid, timestampNs⟩ else none
  | _ => none

def CollectorEvent.returnOf : CollectorEvent → Option Boundary
  | .ret (some id) functionId tid timestampNs => if id = i then some ⟨functionId, tid, timestampNs⟩ else none
  | _ => none

def CollectorEvent.sampleOf : CollectorEvent → Option PendingSample
  | .sample (some id) s => if id = i then some s else none
  | _ => none

def CollectorEvent.tidOf (e : CollectorEvent) : Option Nat :=
  ((e.entryOf i).map (·.tid)).or (((e.returnOf i).map (·.tid)).or ((e.sampleOf i).map (·.tid)))

def CollectorEvent.frames : CollectorEvent → Option (List Frame)
  | .sample _ s => some s.frames
  | _ => none

def CollectorEvent.isSample : CollectorEvent → Bool
  | .sample .. => true
  | _ => false

/-- The functions that an event names. -/
def CollectorEvent.functionIds : CollectorEvent → List Nat
  | .entry _ functionId _ _ | .ret _ functionId _ _ => [functionId]
  | .sample _ s => s.frames.filterMap (·.functionId)
  | _ => []

def CollectorEvent.violationAt : CollectorEvent → Option (Nat × Nat)
  | .violation tid timestampNs => some (tid, timestampNs)
  | _ => none

variable (es : List CollectorEvent)

def entriesOf : List Boundary := es.filterMap (CollectorEvent.entryOf i)

def returnsOf : List Boundary := es.filterMap (CollectorEvent.returnOf i)

def samplesOf : List PendingSample := es.filterMap (CollectorEvent.sampleOf i)

/-- The threads of the events of the identity. -/
def tidsOf : List Nat := es.filterMap (CollectorEvent.tidOf i)

/-- The stacks of all samples. -/
def framesIn : Finset (List Frame) := (es.filterMap CollectorEvent.frames).toFinset

def violationsOf : List (Nat × Nat) := es.filterMap CollectorEvent.violationAt

/-- The thread that the record of the identity carries: that of the first entry, or of the first event
while there is no entry. -/
def carriedTid : Option Nat :=
  ((entriesOf i es).head?.map (·.tid)).or (tidsOf i es).head?

/-- The function that the record of the identity carries. -/
def carriedFunction : Option Nat :=
  ((entriesOf i es).head?.map (·.functionId)).or ((returnsOf i es).head?.map (·.functionId))

/-- A return agrees with what the record carries when it arrives. -/
def ReturnAgrees (r : Boundary) : Prop :=
  (∀ f ∈ carriedFunction i es, f = r.functionId) ∧ ∀ t ∈ carriedTid i es, t = r.tid

/-- The event is the first one of its kind for the identity, and agrees with the events before it. -/
structure Accepted (e : CollectorEvent) : Prop where
  entry : ∀ b ∈ e.entryOf i, entriesOf i es = [] ∧ ∀ r ∈ (returnsOf i es).getLast?, b.timestampNs ≤ r.timestampNs
  ret : ∀ r ∈ e.returnOf i, returnsOf i es = [] ∧ ReturnAgrees i es r ∧
    ∀ b ∈ (entriesOf i es).head?, b.timestampNs ≤ r.timestampNs

/-- Every event of the identity was accepted. -/
def Regular : Prop := Each (Accepted i) es

/-! ## The invocation of an identity -/

/-- Every return agrees with what the record carried when it arrived. -/
def ReturnsAgree : Prop := Each (fun pre ev => ∀ r ∈ ev.returnOf i, ReturnAgrees i pre r) es

/-- The identity has one entry and one return in this order, and no violation on its thread between them. -/
structure Retained (e r : Boundary) : Prop where
  entry : entriesOf i es = [e]
  ret : returnsOf i es = [r]
  agree : ReturnsAgree i es
  ordered : e.timestampNs ≤ r.timestampNs
  clear : ∀ v ∈ violationsOf es, ¬ (v.1 = e.tid ∧ e.timestampNs ≤ v.2 ∧ v.2 ≤ r.timestampNs)

/-- The invocation that an identity with the first entry `e` becomes when the capture stops at `t`. -/
structure Reported (t : Nat) (e : Boundary) (inv : Invocation) : Prop where
  id : inv.id = i
  functionId : inv.functionId = e.functionId
  parentId : inv.parentId = none
  tid : inv.tid = e.tid
  startNs : inv.startNs = e.timestampNs
  endNs : inv.endNs = ((returnsOf i es).getLast?.map (·.timestampNs)).getD (max t e.timestampNs)
  complete : inv.complete = true ↔ returnsOf i es ≠ []
  valid : inv.valid = true ↔ ∃ r, Retained i es e r

/-- The invocation counts as reported. -/
def Invocation.Good (inv : Invocation) : Prop := inv.complete = true ∧ inv.valid = true

/-- The last return of an identity is not before its first entry. -/
def OrderedBoundaries : Prop := ∀ i e r, (entriesOf i es).head? = some e →
  (returnsOf i es).getLast? = some r → e.timestampNs ≤ r.timestampNs

/-- The samples of a retained identity inside its interval are on its thread. -/
def SamplesOnThread : Prop := ∀ i e r, Retained i es e r → ∀ s ∈ samplesOf i es,
  e.timestampNs ≤ s.timestampNs → s.timestampNs ≤ r.timestampNs → s.tid = e.tid

end SliceProfiler
