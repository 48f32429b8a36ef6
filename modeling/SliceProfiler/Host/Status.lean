import SliceProfiler.Core.Profile
import SliceProfiler.Lib.Hex
import SliceProfiler.Lib.Maps
import SliceProfiler.Lib.Text
import SliceProfiler.Lib.Words

/-!
# The status of a process

The text of `/proc/PID/status`, as it is read for the identity of a target, for its end and for the capabilities of the
profiler itself.
-/

namespace SliceProfiler

open Lib

/-- What follows the key in the first line that begins with it. -/
def fieldAfter (key : String) (status : String) : Option (List Char) :=
  (lines status.toList).findSome? (·.dropPrefix? key.toList)

/-- The first id, in the outermost namespace, or the thread group where the ids are not shown. -/
def parseKernelTgid (status : String) : Option Nat :=
  (((fieldAfter "NSpid:" status).bind fun value => (words isWhitespace value).head?).bind fun value =>
    (parseUnsigned u32Max value).toOption).or
  ((fieldAfter "Tgid:" status).bind fun value => (parseUnsigned u32Max (trim isWhitespace value)).toOption)

/-- `status`: the text of the file, when it can be read. -/
def processExists : Option String → Bool
  | none => false
  | some status =>
      (((lines status.toList).find? fun line => "State:".toList.isPrefixOf line).bind fun line =>
        (words isWhitespace line)[1]?) != some ['Z']

def effectiveCapability (status : Option String) (bit : Nat) : Bool :=
  match status with
  | none => false
  | some status =>
      ((fieldAfter "CapEff:\t" status).bind fun value => parseHex u64Max (trim isWhitespace value)).any (·.testBit bit)

/-! ## The table of the kernel -/

/-- The lines of the table: a key and its value. -/
abbrev StatusTable := List (String × List Char)

def statusLine (field : String × List Char) : List Char := field.1.toList ++ ':' :: '\t' :: field.2

def statusText (table : StatusTable) : String := String.ofList (table.flatMap fun field => statusLine field ++ ['\n'])

/-- Keys have no colon, and no field has a line feed. -/
def StatusTable.Shown (table : StatusTable) : Prop :=
  ∀ field ∈ table, ':' ∉ field.1.toList ∧ '\n' ∉ field.1.toList ∧ '\n' ∉ field.2

/-- `ids`: one for each namespace, from the outermost on. -/
structure ProcessStatus where
  ids : List Nat
  tgid : Nat
  state : Char
  stateName : List Char
  capEff : Nat

/-- The fields of the process are in the table, among others. A kernel without namespaces shows no ids. -/
structure ProcessStatus.ShownIn (p : ProcessStatus) (table : StatusTable) : Prop where
  shown : table.Shown
  ids : lookupKey "NSpid" table = if p.ids = [] then none else some (['\t'].intercalate (p.ids.map (Nat.toDigits 10)))
  tgid : lookupKey "Tgid" table = some (Nat.toDigits 10 p.tgid)
  state : lookupKey "State" table = some (p.state :: ' ' :: p.stateName)
  capEff : lookupKey "CapEff" table = some (paddedHex 16 p.capEff)
  ids_le : ∀ id ∈ p.ids, id ≤ u32Max
  tgid_le : p.tgid ≤ u32Max
  capEff_le : p.capEff ≤ u64Max
  stateWord : isWhitespace p.state = false

end SliceProfiler
