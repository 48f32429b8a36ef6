import SliceProfiler.Cli.Range
import SliceProfiler.Core.Format
import SliceProfiler.Viewer.State

/-!
# The command `view`

The query that the command builds from its arguments, and the page of the report.
-/

namespace SliceProfiler.Cli

open Lib

/-- The message that stands on top of an error. -/
inductive ViewError where
  | readProfile (path : String) (e : ProfileError)
  | validation (path : String) (e : ProfileValidationError)
  | arguments (e : Failure)
  | render (e : Viewer.RenderError)

/-- `part.trim().parse::<u32>()` -/
def parseThread (part : List Char) : Except Failure Nat :=
  (parseUnsigned u32Max (trim isWhitespace part)).mapError fun _ => .error "invalid thread ID"

def parseThreads (value : String) : Except Failure (Finset Nat) := do
  let tids ← (value.toList.splitOn ',').mapM parseThread
  .ok tids.toFinset

/-- `text.parse::<u8>()` -/
def parseBound (text : List Char) (message : String) : Except Failure Nat :=
  (parseUnsigned 255 text).mapError fun _ => .error message

def parsePercentile (value : String) : Except Failure PercentileRange := do
  let (low, high) ← require (.error "percentile must be LOW:HIGH") (splitOnce ':' value.toList)
  let low ← parseBound low "invalid percentile lower bound"
  let high ← parseBound high "invalid percentile upper bound"
  ensure (¬ (low ≥ high ∨ high > 100)) (.error "percentile must satisfy 0 <= LOW < HIGH <= 100")
  .ok ⟨low, high⟩

structure ViewArgs where
  path : String
  threads : Option String := none
  time : Option String := none
  percentile : String := "0:100"
  metric : Metric := .wall

/-- `option.map(parse).transpose()` -/
def transpose {α β ε : Type} (parse : α → Except ε β) : Option α → Except ε (Option β)
  | none => .ok none
  | some a => (parse a).map some

def viewQuery (b : Build) (p : Profile) (a : ViewArgs) : Except Failure Query := do
  let function ← require (.error "profile has no functions") p.functions.head?
  let threads ← transpose parseThreads a.threads
  let time ← transpose (parseTime b · p.captureBounds) a.time
  let percentile ← parsePercentile a.percentile
  .ok ⟨function.id, threads, time, percentile, a.metric⟩

/-- `bytes`: what the file of the profile holds. -/
def view (b : Build) (l : FileLayers) (bytes : List UInt8) (a : ViewArgs) : Except ViewError Viewer.State := do
  let p ← (Profile.fromBytes l bytes).mapError (.readProfile a.path)
  let _ ← p.validate.mapError (.validation a.path)
  let q ← (viewQuery b p a).mapError .arguments
  (Viewer.renderHtml p q).mapError .render

/-! ## What the arguments say -/

/-- The parts between the commas are the decimal numbers of the set. -/
def ThreadList (text : String) (tids : Finset Nat) : Prop :=
  ∃ l : List Nat, List.Forall₂ (fun part tid => Numeral (trim isWhitespace part) tid ∧ tid ≤ u32Max)
    (text.toList.splitOn ',') l ∧ tids = l.toFinset

def PercentileText (text : String) (r : PercentileRange) : Prop :=
  ∃ low high, splitOnce ':' text.toList = some (low, high) ∧ Numeral low r.low ∧ Numeral high r.high ∧
    r.low < r.high ∧ r.high ≤ 100

/-- The query asks for what the arguments say of the first function of the profile. -/
structure ViewArgs.Asks (a : ViewArgs) (b : Build) (p : Profile) (q : Query) : Prop where
  function : p.functions.head?.map (·.id) = some q.functionId
  threads : Option.Rel ThreadList a.threads q.threads
  time : Option.Rel (fun text range => parseTime b text p.captureBounds = .ok range) a.time q.time
  percentile : PercentileText a.percentile q.percentile
  metric : q.metric = a.metric

end SliceProfiler.Cli
