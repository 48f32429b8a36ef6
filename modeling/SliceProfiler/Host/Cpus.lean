import SliceProfiler.Core.Profile
import SliceProfiler.Lib.Checks
import SliceProfiler.Lib.Text

/-!
# The processors that are sampled

The list in `/sys/devices/system/cpu/online`, one range or number behind the other.
-/

namespace SliceProfiler

open Lib

/-- `parse` and `reversed` hold the text of the range. -/
inductive CpuError where
  | parallelism (message : String)
  | parse (range : List Char)
  | reversed (range : List Char)
  | noCpus
deriving DecidableEq

/-- `first..=last`, where a range without a hyphen is its own end. -/
def cpuRange (range : List Char) : Except CpuError (List Nat) := do
  let (first, last) := (splitOnce '-' range).getD (range, range)
  let first ← (parseUnsigned u64Max first).mapError fun _ => .parse range
  let last ← (parseUnsigned u64Max last).mapError fun _ => .parse range
  ensure (¬ last < first) (.reversed range)
  .ok (List.range' first (last + 1 - first))

/-- `range.trim().split(',').filter(|range| !range.is_empty())` -/
def cpuRanges (online : String) : List (List Char) :=
  ((trim isWhitespace online.toList).splitOn ',').filter fun range => !range.isEmpty

/-- `online`: the text of the file, when it can be read. -/
def availableCpuIds (parallelism : Except String Nat) : Option String → Except CpuError (List Nat)
  | none => (parallelism.map List.range).mapError .parallelism
  | some online => do
      let cpus ← (cpuRanges online).mapM cpuRange
      ensure (cpus.flatten ≠ []) .noCpus
      .ok cpus.flatten

/-! ## What the list says -/

/-- The processors from `first` to `last`. -/
structure CpuSpan where
  first : Nat
  last : Nat
  ordered : first ≤ last
  fits : last ≤ u64Max

def CpuSpan.ids (r : CpuSpan) : List Nat := List.range' r.first (r.last + 1 - r.first)

def CpuSpan.ReadFrom (range : List Char) (r : CpuSpan) : Prop :=
  Numeral ((splitOnce '-' range).getD (range, range)).1 r.first ∧
    Numeral ((splitOnce '-' range).getD (range, range)).2 r.last

/-- The text of the kernel. -/
def CpuSpan.text (r : CpuSpan) : List Char :=
  if r.first = r.last then Nat.toDigits 10 r.first else Nat.toDigits 10 r.first ++ '-' :: Nat.toDigits 10 r.last

def onlineText (spans : List CpuSpan) : String := String.ofList ([','].intercalate (spans.map CpuSpan.text) ++ ['\n'])

end SliceProfiler
