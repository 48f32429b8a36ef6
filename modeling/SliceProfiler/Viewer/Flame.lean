import SliceProfiler.Viewer.State

/-!
# The flame graph of the viewer

The sample loop of `calculate`, for any set of selected ids. The numbers of the script are natural
numbers: the loop only adds weights.
-/

namespace SliceProfiler.Viewer

open Lib

/-- The children stand in the order of their insertion. -/
inductive Node where
  | mk (name : String) (value selfValue sampleCount : Nat) (invocations : Finset Nat)
      (children : List (String × Node)) (cpu off : Nat)

def Node.name : Node → String
  | .mk name _ _ _ _ _ _ _ => name

def Node.value : Node → Nat
  | .mk _ value _ _ _ _ _ _ => value

def Node.selfValue : Node → Nat
  | .mk _ _ selfValue _ _ _ _ _ => selfValue

def Node.children : Node → List (String × Node)
  | .mk _ _ _ _ _ children _ _ => children

/-- `node(name)` -/
def Node.new (name : String) : Node := .mk name 0 0 0 ∅ [] 0 0

def State.metricIncludes (s : State) (state : ExecutionState) : Bool :=
  s.metric == .wall || (s.metric == .cpu && state == .onCpu) || (s.metric == .offCpu && state == .offCpu)

/-- What `current` counts of one sample; its last node also counts the weight as its own. -/
def Node.count (sample : Sample) (included last : Bool) : Node → Node
  | .mk name value selfValue sampleCount invocations children cpu off =>
      .mk name (if included then value + sample.weightNs else value)
        (if included && last then selfValue + sample.weightNs else selfValue)
        (sampleCount + 1) (insert sample.invocationId invocations) children
        (if sample.state = .onCpu then cpu + sample.weightNs else cpu)
        (if sample.state = .onCpu then off else off + sample.weightNs)

/-- `children.set(label, f(children.get(label)))` -/
def Node.setChild (label : String) (f : Option Node → Node) : Node → Node
  | .mk name value selfValue sampleCount invocations children cpu off =>
      .mk name value selfValue sampleCount invocations (upsertLast label f children) cpu off

/-- The walk of one sample from `current` along the frames. -/
def Node.visit (sample : Sample) (included : Bool) : List Frame → Node → Node
  | [], current => current.count sample included true
  | frame :: rest, current =>
      (current.count sample included false).setChild frame.label fun child =>
        visit sample included rest (child.getD (.new frame.label))

structure Aggregation where
  root : Node
  selectedSampleCount : Nat
  cpu : Nat
  off : Nat

def State.selectedName (s : State) (p : Profile) : Option String :=
  ((Map.ofList (p.functions.map fun f => (f.id, f))).lookup s.functionId).map (·.demangledName)

def State.startsAt (s : State) (p : Profile) (f : Frame) : Bool :=
  f.functionId == some s.functionId || (s.selectedName p).any (fun name => f.label == name)

/-- One turn of the sample loop. -/
def State.aggregateSample (s : State) (p : Profile) (selectedIds : Finset Nat) (a : Aggregation)
    (sample : Sample) : Aggregation :=
  if sample.invocationId ∉ selectedIds then a
  else
    match (Map.ofList (p.stacks.map fun k => (k.id, k))).lookup sample.stackId with
    | none => a
    | some stack =>
        match stack.frames.findIdx? (s.startsAt p) with
        | none => a
        | some startFrame =>
            let included := s.metricIncludes sample.state
            { root := a.root.visit sample included (stack.frames.drop startFrame)
              selectedSampleCount := if included then a.selectedSampleCount + 1 else a.selectedSampleCount
              cpu := if sample.state = .onCpu then a.cpu + sample.weightNs else a.cpu
              off := if sample.state = .onCpu then a.off else a.off + sample.weightNs }

def State.aggregate (s : State) (p : Profile) (selectedIds : Finset Nat) : Aggregation :=
  p.samples.foldl (s.aggregateSample p selectedIds) ⟨.new "root", 0, 0, 0⟩

/-- The flame graph that `calculate` returns beside the population. -/
def State.flame (s : State) (p : Profile) : Aggregation :=
  let (population, s) := s.calculate p
  s.aggregate p (population.chosen.map (·.id)).toFinset

end SliceProfiler.Viewer
