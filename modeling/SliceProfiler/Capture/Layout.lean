import SliceProfiler.Capture.Resolver

/-!
# Load segments and the maps of a process

What the loader makes of the segments of an object file, and what a correct label is.
-/

namespace SliceProfiler

open Lib

def pageDown (a : Nat) : Nat := a / 4096 * 4096

def pageUp (a : Nat) : Nat := (a + 4095) / 4096 * 4096

/-- The pages of the segments do not meet. -/
def Segment.Apart (s s' : Segment) : Prop :=
  pageUp (s.address + s.fileSize) ≤ pageDown s'.address ∨
    pageUp (s'.address + s'.fileSize) ≤ pageDown s.address

/-- The load segments of a file and the address that they are loaded at. -/
structure Layout where
  segments : List Segment
  bias : Nat
  aligned : bias % 4096 = 0
  congruent : ∀ s ∈ segments, s.fileOffset % 4096 = s.address % 4096
  disjoint : segments.Pairwise Segment.Apart
  inMemory : ∀ s ∈ segments, bias + pageUp (s.address + s.fileSize) ≤ u64Max
  inFile : ∀ s ∈ segments, s.fileOffset + s.fileSize ≤ u64Max

/-- The address lies in the part of the segment that comes from the file. -/
def Segment.Holds (s : Segment) (a : Nat) : Prop := s.address ≤ a ∧ a < s.address + s.fileSize

variable (L : Layout)

/-- The loader maps whole pages of the file. -/
def Layout.start (s : Segment) : Nat := L.bias + pageDown s.address

def Layout.mapLine (mapped : String) (s : Segment) : MapLine :=
  ⟨L.start s, L.bias + pageUp (s.address + s.fileSize), pageDown s.fileOffset, mapped⟩

/-- Among the lines of the map table that name the module are exactly the segments of the layout. -/
def Layout.Loaded (canonicalize : String → Option String) (module : String) (maps : List MapLine) : Prop :=
  ∃ mapped : Segment → String,
    (maps.filter fun line => canonicalize line.mapped == some module).Perm
      ((L.segments.filter fun s => 0 < s.fileSize).map fun s => L.mapLine (mapped s) s)

def Layout.file (symbols dynamicSymbols : List ElfSymbol) : ElfFile := ⟨symbols, dynamicSymbols, L.segments⟩

/-- The label names a symbol with the greatest address up to `a`, or there is none and it says so. -/
def LabelFor (demangle : String → Option String) (file : ElfFile) (a runtime : Nat) (label : String) : Prop :=
  (∃ s ∈ file.textSymbols, ∃ name, s.name = some name ∧ label = displayName demangle name ∧ s.address ≤ a ∧
    ∀ s' ∈ file.textSymbols, s'.name.isSome → s'.address ≤ a → s'.address ≤ s.address) ∨
  (∀ s ∈ file.textSymbols, s.name.isSome → ¬ s.address ≤ a) ∧ label = unknownLabel runtime

/-- The frames of the runtime address of `a` are one frame with a right label, and a probe that was
selected at `a` is at its runtime address in the mapping of the segment. -/
structure Layout.Symbolizes (demangle canonicalize : String → Option String) (module : String)
    (file : ElfFile) (maps : List MapLine) (s : Segment) (a : Nat) : Prop where
  frames : ∃ f, (Resolver.new demangle canonicalize module file maps).frames [L.bias + a] = [f] ∧
    LabelFor demangle file a (L.bias + a) f.label
  probe : ∀ requested selected, selectSymbol demangle file requested = .ok selected → selected.address = a →
    L.start s + (selected.probeOffset - pageDown s.fileOffset) = L.bias + a

/-- The first segment of the file that holds the page of the segment's offset. -/
def Layout.resolved (s : Segment) : Option Segment :=
  L.segments.find? fun j => j.fileOffset ≤ pageDown s.fileOffset && pageDown s.fileOffset < j.fileOffset + j.fileSize

/-- This segment moves offsets to addresses as the segment does. -/
def Layout.OffsetResolves (s : Segment) : Prop :=
  ∃ j, L.resolved s = some j ∧ j.address + s.fileOffset = s.address + j.fileOffset

end SliceProfiler
