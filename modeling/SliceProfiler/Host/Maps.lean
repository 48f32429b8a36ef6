import SliceProfiler.Capture.Layout
import SliceProfiler.Lib.Hex
import SliceProfiler.Lib.Text
import SliceProfiler.Lib.Words

/-!
# The map table of a process

The text of `/proc/PID/maps`, as the resolver reads it and as the kernel writes it.
-/

namespace SliceProfiler

open Lib

/-- What the resolver reads of a line, before it looks for the module. A line without a file is skipped. -/
def readMapLine (line : List Char) : Option MapLine :=
  match words isWhitespace line with
  | range :: _ :: offset :: _ :: _ :: mapped :: _ =>
      if mapped.head? = some '/' then do
        let (start, stop) ← splitOnce '-' range
        let start ← parseHex u64Max start
        let stop ← parseHex u64Max stop
        let offset ← parseHex u64Max offset
        some ⟨start, stop, offset,
          String.ofList (trimEndMatches [' ', '(', 'd', 'e', 'l', 'e', 't', 'e', 'd', ')'] mapped)⟩
      else none
  | _ => none

/-- `read_to_string(..).unwrap_or_default().lines()` -/
def readMaps (text : Option String) : List MapLine := (lines (text.getD "").toList).filterMap readMapLine

/-- `Resolver::new` on the texts that it reads; `module` is the canonical path. -/
def Resolver.read (demangle : String → Option String) (canonicalize : String → Option String) (module : String)
    (file : ElfFile) (maps : Option String) : Resolver :=
  Resolver.new demangle canonicalize module file (readMaps maps)

/-! ## The table of the kernel -/

/-- A mapping as the kernel shows it. `path` is all that follows the blanks behind the inode: the path of a file, with a
mark behind it when the file is deleted, a name in brackets, or nothing. -/
structure MapEntry where
  start : Nat
  stop : Nat
  perms : List Char
  offset : Nat
  device : List Char
  inode : List Char
  blanks : Nat
  path : List Char
deriving DecidableEq

/-- The text is a word. -/
def IsWord (l : List Char) : Prop := l ≠ [] ∧ ∀ c ∈ l, isWhitespace c = false

instance (l : List Char) : Decidable (IsWord l) :=
  decidable_of_iff (l ≠ [] ∧ l.all (fun c => !isWhitespace c) = true) (by simp [IsWord])

structure MapEntry.Shown (e : MapEntry) : Prop where
  start : e.start ≤ u64Max
  stop : e.stop ≤ u64Max
  offset : e.offset ≤ u64Max
  perms : IsWord e.perms
  device : IsWord e.device
  inode : IsWord e.inode
  path : '\n' ∉ e.path ∧ ∀ c, e.path.head? = some c → isWhitespace c = false

def MapEntry.line (e : MapEntry) : List Char :=
  (paddedHex 8 e.start ++ '-' :: paddedHex 8 e.stop) ++ ' ' :: (e.perms ++ ' ' :: (paddedHex 8 e.offset ++
    ' ' :: (e.device ++ ' ' :: (e.inode ++ ' ' :: (List.replicate e.blanks ' ' ++ e.path)))))

def tableText (table : List MapEntry) : String := String.ofList (table.flatMap fun e => e.line ++ ['\n'])

/-- The path up to its first blank, when it is the path of a file. -/
def MapEntry.mapped (e : MapEntry) : Option String :=
  if e.path.head? = some '/' then some (String.ofList (e.path.takeWhile fun c => !isWhitespace c)) else none

def MapEntry.mapLine (e : MapEntry) : Option MapLine := e.mapped.map fun mapped => ⟨e.start, e.stop, e.offset, mapped⟩

end SliceProfiler
