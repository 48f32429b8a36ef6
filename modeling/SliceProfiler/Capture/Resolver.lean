import SliceProfiler.Core.Profile
import SliceProfiler.Lib.SortByKey

/-!
# Symbols, probes and frames

The probe offset of a selected function, and the frames of a list of runtime addresses. The reader of
the object file is outside of the source: its records are the input here, and so is the demangler, which
fails on a name that is not mangled.
-/

namespace SliceProfiler

open Lib

structure ElfSymbol where
  text : Bool
  address : Nat
  name : Option String
deriving DecidableEq

/-- A load segment with the part of it that comes from the file. -/
structure Segment where
  fileOffset : Nat
  fileSize : Nat
  address : Nat
deriving DecidableEq

structure ElfFile where
  symbols : List ElfSymbol
  dynamicSymbols : List ElfSymbol
  segments : List Segment

def displayName (demangle : String → Option String) (name : String) : String := (demangle name).getD name

def ElfFile.textSymbols (file : ElfFile) : List ElfSymbol :=
  (file.symbols ++ file.dynamicSymbols).filter fun symbol => symbol.text && symbol.address != 0

/-! ## The probe of a function -/

structure SelectedSymbol where
  rawName : String
  demangledName : String
  address : Nat
  probeOffset : Nat
deriving DecidableEq

inductive SelectError where
  | noFunction (requested : String)
  | ambiguous (requested : String) (addresses : List Nat)
  | noOffset
deriving DecidableEq

structure SymbolCandidate where
  rawName : String
  demangledName : String
  address : Nat
deriving DecidableEq

def symbolCandidates (demangle : String → Option String) (file : ElfFile) (requested : String) :
    List SymbolCandidate :=
  file.textSymbols.filterMap fun symbol => symbol.name.bind fun rawName =>
    if displayName demangle rawName = requested then
      some ⟨rawName, displayName demangle rawName, symbol.address⟩
    else none

/-- The file offset of a virtual address, from the first segment that holds it. -/
def ElfFile.probeOffset (file : ElfFile) (address : Nat) : Option Nat :=
  file.segments.findSome? fun segment =>
    let addressEnd := satAdd64 segment.address segment.fileSize
    if address ≥ segment.address ∧ address < addressEnd then
      some (satAdd64 segment.fileOffset (address - segment.address))
    else none

def selectSymbol (demangle : String → Option String) (file : ElfFile) (requested : String) :
    Except SelectError SelectedSymbol :=
  match dedupByKey (·.address) (sortByKey (·.address) (symbolCandidates demangle file requested)) with
  | [] => .error (.noFunction requested)
  | [candidate] =>
      match file.probeOffset candidate.address with
      | some probeOffset =>
          .ok ⟨candidate.rawName, candidate.demangledName, candidate.address, probeOffset⟩
      | none => .error .noOffset
  | many => .error (.ambiguous requested (many.map (·.address)))

/-! ## The resolver -/

structure Mapping where
  runtimeStart : Nat
  runtimeEnd : Nat
  fileStart : Nat
deriving DecidableEq

structure Resolver where
  symbols : List (Nat × String)
  mappings : List Mapping

/-- A line of the process's map table. -/
structure MapLine where
  start : Nat
  stop : Nat
  offset : Nat
  mapped : String
deriving DecidableEq

/-- The first segment whose part of the file holds the offset of the mapping. -/
def ElfFile.segmentAt (file : ElfFile) (offset : Nat) : Option Segment :=
  file.segments.find? fun segment =>
    offset ≥ segment.fileOffset && offset < satAdd64 segment.fileOffset segment.fileSize

def ElfFile.mapping (file : ElfFile) (line : MapLine) : Option Mapping :=
  (file.segmentAt line.offset).map fun segment =>
    ⟨line.start, line.stop, satAdd64 segment.address (line.offset - segment.fileOffset)⟩

def ElfFile.symbolTable (demangle : String → Option String) (file : ElfFile) : List (Nat × String) :=
  dedupByKey (·.1) <| sortByKey (·.1) <| file.textSymbols.filterMap fun symbol =>
    symbol.name.map fun name => (symbol.address, displayName demangle name)

def Resolver.new (demangle : String → Option String) (canonicalize : String → Option String)
    (module : String) (file : ElfFile) (maps : List MapLine) : Resolver where
  symbols := file.symbolTable demangle
  mappings := (maps.filter fun line => canonicalize line.mapped == some module).filterMap file.mapping

def Resolver.fileAddress (r : Resolver) (address : Nat) : Option Nat :=
  (r.mappings.find? fun m => address ≥ m.runtimeStart && address < m.runtimeEnd).map fun m =>
    satAdd64 m.fileStart (address - m.runtimeStart)

/-- `format!("[unknown 0x{address:x}]")` -/
def unknownLabel (address : Nat) : String :=
  "[unknown 0x" ++ String.ofList (Nat.toDigits 16 address) ++ "]"

def Resolver.frame (r : Resolver) (address : Nat) : Frame :=
  let fileAddress := r.fileAddress address
  let symbol := fileAddress.bind fun fileAddress => r.symbols.reverse.find? fun s => s.1 ≤ fileAddress
  { functionId := none
    label := (symbol.map Prod.snd).getD (unknownLabel address)
    module := fileAddress.map fun _ => "target"
    address := some address }

/-- The addresses come from the leaf to the root, and the frames go from the root to the leaf. -/
def Resolver.frames (r : Resolver) (addresses : List Nat) : List Frame := (addresses.map r.frame).reverse

end SliceProfiler
