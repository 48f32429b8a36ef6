import Mathlib.Data.String.Basic
import SliceProfiler.Core.Profile
import SliceProfiler.Lib.Checks
import SliceProfiler.Lib.Text

/-!
# Ranges on the command line

The range of time that a command takes as text, relative to the beginning of the capture.
-/

namespace SliceProfiler

open Lib

/-- What becomes of a `u64` result that does not fit. -/
inductive Build where
  | release
  | debug
deriving DecidableEq

inductive Failure where
  | error (message : String)
  | panic
deriving DecidableEq

def Build.fit (b : Build) (n : Nat) : Except Failure Nat :=
  if n ≤ u64Max then .ok n
  else
    match b with
    | .release => .ok (n % (u64Max + 1))
    | .debug => .error .panic

def units : List (String × Nat) := [("ns", 1), ("us", 1000), ("ms", 1000000), ("s", 1000000000)]

/-- `number.trim().parse::<u64>()? * multiplier` -/
def parseNumber (b : Build) (number : List Char) (multiplier : Nat) : Except Failure Nat :=
  match parseUnsigned u64Max (trim isWhitespace number) with
  | .ok n => b.fit (n * multiplier)
  | .error e => .error (.error e.message)

/-- The loop over the units. -/
def parseWithUnits (b : Build) (value : List Char) : List (String × Nat) → Except Failure Nat
  | [] => .error (.error "duration must use ns, us, ms, or s")
  | (suffix, multiplier) :: units =>
      match stripSuffix suffix.toList value with
      | some number => parseNumber b number multiplier
      | none => parseWithUnits b value units

def parseDurationNs (b : Build) (value : List Char) : Except Failure Nat := parseWithUnits b value units

def parseTime (b : Build) (value : String) (bounds : Option TimeRange) : Except Failure TimeRange := do
  let bounds ← require (.error "profile has no invocations") bounds
  let (low, high) ← require (.error "time must be FROM:TO") (splitOnce ':' value.toList)
  let low ← parseDurationNs b low
  let fromNs ← b.fit (bounds.fromNs + low)
  let high ← parseDurationNs b high
  let toNs ← b.fit (bounds.fromNs + high)
  ensure (¬ fromNs ≥ toNs) (.error "time must satisfy FROM < TO")
  .ok ⟨fromNs, toNs⟩

/-- The text is the number `n` with the unit of `multiplier` nanoseconds. -/
structure Duration (value : List Char) (n multiplier : Nat) : Prop where
  le : n ≤ u64Max
  text : ∃ number suffix, value = number ++ suffix.toList ∧ (suffix, multiplier) ∈ units ∧
    Numeral (trim isWhitespace number) n

end SliceProfiler
