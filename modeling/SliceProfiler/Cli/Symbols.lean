import Mathlib.Data.String.Basic
import SliceProfiler.Capture.Resolver
import SliceProfiler.Lib.Checks
import SliceProfiler.Lib.Hex

/-!
# The command `symbols`

The listing of the functions of an object file, from which a name is taken for the selection of a probe. The
listing also holds the functions without an address, which the file imports.
-/

namespace SliceProfiler.Cli

open Lib

/-- The order of the tuples of address, raw name and demangled name. -/
def entryKey (e : SymbolCandidate) : Nat ×ₗ String ×ₗ String := toLex (e.address, toLex (e.rawName, e.demangledName))

def symbolEntries (demangle : String → Option String) (toLowercase : String → String) (file : ElfFile)
    (needle : Option String) : List SymbolCandidate :=
  ((file.symbols ++ file.dynamicSymbols).filter (·.text)).filterMap fun symbol => symbol.name.bind fun raw =>
    let demangled := displayName demangle raw
    if (needle.map toLowercase).any fun needle => !decide (needle.toList <:+: (toLowercase demangled).toList) then none
    else some ⟨raw, demangled, symbol.address⟩

/-- `path`: the text of the path in the message. -/
def listSymbols (demangle : String → Option String) (toLowercase : String → String) (path : String) (file : ElfFile)
    (needle : Option String) : Except String (List SymbolCandidate) := do
  let entries := dedupByKey entryKey (sortByKey entryKey (symbolEntries demangle toLowercase file needle))
  ensure (entries ≠ []) ("no matching executable symbols in " ++ path)
  .ok entries

/-- `0x{address:016x}\t{demangled}` -/
def entryLine (e : SymbolCandidate) : String :=
  "0x" ++ String.ofList (paddedHex 16 e.address) ++ "\t" ++ e.demangledName

/-! ## What is listed -/

/-- The entry is a function of the file, perhaps an import. -/
def Names (demangle : String → Option String) (file : ElfFile) (e : SymbolCandidate) : Prop :=
  ∃ symbol ∈ file.symbols ++ file.dynamicSymbols, symbol.text = true ∧ symbol.name = some e.rawName ∧
    e.demangledName = displayName demangle e.rawName ∧ e.address = symbol.address

def Contains (toLowercase : String → String) (needle : Option String) (e : SymbolCandidate) : Prop :=
  ∀ text, needle = some text → (toLowercase text).toList <:+: (toLowercase e.demangledName).toList

/-- The address of a function of the name, imports aside. -/
def ListedAt (entries : List SymbolCandidate) (name : String) (address : Nat) : Prop :=
  address ≠ 0 ∧ ∃ e ∈ entries, e.demangledName = name ∧ e.address = address

/-- The selection of a name is what the addresses in the listing say of it. -/
structure AgreesWith (file : ElfFile) (entries : List SymbolCandidate) (name : String)
    (selection : Except SelectError SelectedSymbol) : Prop where
  noFunction : selection = .error (.noFunction name) ↔ ∀ a, ¬ ListedAt entries name a
  ambiguous : ∀ addresses, selection = .error (.ambiguous name addresses) ↔
    2 ≤ addresses.length ∧ addresses.Pairwise (· < ·) ∧ ∀ a, a ∈ addresses ↔ ListedAt entries name a
  one : ∀ a, (∀ b, ListedAt entries name b ↔ b = a) → ∃ e ∈ entries, e.address = a ∧
    selection = (file.probeOffset a).elim (.error .noOffset) fun offset => .ok ⟨e.rawName, name, a, offset⟩

end SliceProfiler.Cli
