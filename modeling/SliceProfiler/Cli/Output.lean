import SliceProfiler.Cli.Profile
import SliceProfiler.Core.Format
import SliceProfiler.Lib.Publish

/-!
# The output of the command `profile`

`write_profile_atomically` of any number of processes with one output path, while other processes read it.
-/

namespace SliceProfiler.Cli

open Lib

inductive Component where
  | rootDir
  | curDir
  | parentDir
  | normal (name : String)
  /-- A name that is no valid Unicode. -/
  | invalid (name : List UInt8)
deriving DecidableEq

abbrev Path := List Component

namespace Path

/-- The last component, when it is a name. -/
def fileName (path : Path) : Option Component :=
  path.getLast?.filter fun
    | .normal _ | .invalid _ => true
    | .rootDir | .curDir | .parentDir => false

/-- `output.file_name().and_then(|name| name.to_str())` -/
def fileNameText (path : Path) : Option String :=
  path.fileName.bind fun
    | .normal name => some name
    | _ => none

def withFileName (path : Path) (name : String) : Path :=
  (if path.fileName.isSome then path.dropLast else path) ++ [.normal name]

/-- `pid`: of the process that writes. -/
def temporary (output : Path) (fileName : String) (pid : Nat) : Path :=
  output.withFileName s!".{fileName}.tmp-{pid}"

variable {output : Path} {name : String}

theorem fileNameText_eq_some (h : output.fileNameText = some name) :
    output.fileName.isSome ∧ output = output.dropLast ++ [.normal name] := by
  obtain ⟨c, hc, hname⟩ := Option.bind_eq_some_iff.mp h
  refine ⟨Option.isSome_of_eq_some hc, ?_⟩
  have hlast := (Option.filter_eq_some_iff.mp hc).1
  cases c with
  | normal name' =>
      cases hname
      rw [List.dropLast_append_getLast? _ hlast]
  | rootDir | curDir | parentDir | invalid => cases hname

theorem repr_injective {m n : Nat} (h : Nat.repr m = Nat.repr n) : m = n := by
  have hdigits : Nat.toDigits 10 m = Nat.toDigits 10 n := by
    rw [← Nat.toList_repr, ← Nat.toList_repr, h]
  rw [← Nat.ofDigitChars_ten_toDigits (n := m), hdigits, Nat.ofDigitChars_ten_toDigits]

/-- Two processes never write the same temporary file. -/
theorem temporary_injective (output : Path) (fileName : String) : (output.temporary fileName).Injective := by
  intro m n h
  have hname := List.append_inj_right' h rfl
  exact repr_injective (by simpa using hname)

theorem temporary_ne (h : output.fileNameText = some name) (pid : Nat) : output.temporary name pid ≠ output := by
  intro he
  obtain ⟨hsome, hout⟩ := fileNameText_eq_some h
  rw [temporary, withFileName, if_pos hsome] at he
  have hname : [Component.normal s!".{name}.tmp-{pid}"] = [.normal name] := List.append_cancel_left (he.trans hout)
  have hlen := congrArg String.length (Component.normal.inj (List.cons.inj hname).1)
  have hself : (toString name).length = name.length := rfl
  have hdot : (toString ".").length = 1 := rfl
  simp only [String.length_append, hself, hdot] at hlen
  omega

end Path

/-- The name in front of the first call. -/
def outputName (output : Path) : Except Messages String :=
  match output.fileNameText with
  | none => .error ["profile output path must have a valid file name"]
  | some name => .ok name

theorem fileNameText_of_outputName {output : Path} {name : String} (h : outputName output = .ok name) :
    output.fileNameText = some name := by
  unfold outputName at h
  split at h
  · cases h
  · rename_i he
    cases h
    exact he

/-- The processes that write one output, each with the profile that it has captured. -/
def publishers (l : FileLayers) (profiles : Nat → Profile) {output : Path} {name : String}
    (h : outputName output = .ok name) : Publishers Path Nat UInt8 where
  output
  temporary := output.temporary name
  data pid := ((profiles pid).toBytes l).toOption
  injective := Path.temporary_injective output name
  apart := Path.temporary_ne (fileNameText_of_outputName h)

/-- The bytes are those of one profile whose process has renamed its file. -/
def WrittenBy (l : FileLayers) (profiles : Nat → Profile) (s : Published Path Nat Nat UInt8) (bytes : List UInt8) :
    Prop :=
  ∃ pid, s.writers pid = .renamed ∧ (profiles pid).toBytes l = .ok bytes

end SliceProfiler.Cli
