import Mathlib.Data.List.Find
import Mathlib.Data.List.Pairwise
import SliceProfiler.Capture.Layout

/-!
# Which address the resolver looks up
-/

namespace SliceProfiler

open Lib

variable {L : Layout} {s : Segment} {a : Nat}

/-! ## Pages -/

theorem Segment.Holds.page (h : s.Holds a) :
    pageDown s.address ≤ a ∧ a < pageUp (s.address + s.fileSize) := by
  obtain ⟨h₁, h₂⟩ := h
  simp only [pageDown, pageUp]
  omega

theorem Layout.eq_of_page (L : Layout) {s s' : Segment} (hs : s ∈ L.segments) (hs' : s' ∈ L.segments)
    (h : pageDown s.address ≤ a ∧ a < pageUp (s.address + s.fileSize))
    (h' : pageDown s'.address ≤ a ∧ a < pageUp (s'.address + s'.fileSize)) : s = s' := by
  by_contra hne
  have : Std.Symm Segment.Apart := ⟨fun _ _ hd => hd.symm⟩
  have hd := L.disjoint.forall hs hs' hne
  rw [Segment.Apart] at hd
  omega

theorem Layout.page_offset (L : Layout) (hs : s ∈ L.segments) :
    pageDown s.fileOffset ≤ s.fileOffset ∧ pageDown s.address ≤ s.address ∧
      s.fileOffset - pageDown s.fileOffset = s.address - pageDown s.address := by
  have := L.congruent s hs
  simp only [pageDown]
  omega

/-! ## Symbols -/

variable {demangle canonicalize : String → Option String} {file : ElfFile}

theorem mem_symbolTable {x : Nat × String} (h : x ∈ file.symbolTable demangle) :
    ∃ symbol ∈ file.textSymbols, ∃ name, symbol.name = some name ∧ x = (symbol.address, displayName demangle name) := by
  have hm := mem_sortByKey.mp ((dedupByKey_sublist _).subset h)
  obtain ⟨symbol, hs, hx⟩ := List.mem_filterMap.mp hm
  obtain ⟨name, hn, rfl⟩ := Option.map_eq_some_iff.mp hx
  exact ⟨symbol, hs, name, hn, rfl⟩

theorem exists_symbolTable (demangle : String → Option String) {symbol : ElfSymbol}
    (hs : symbol ∈ file.textSymbols) (hn : symbol.name.isSome) :
    ∃ x ∈ file.symbolTable demangle, x.1 = symbol.address := by
  obtain ⟨name, hn⟩ := Option.isSome_iff_exists.mp hn
  have hm : symbol.address ∈ (file.symbolTable demangle).map (·.1) := by
    rw [ElfFile.symbolTable, mem_keys_dedupByKey, ((sortByKey_perm _ _).map _).mem_iff, List.mem_map]
    exact ⟨(symbol.address, displayName demangle name),
      List.mem_filterMap.mpr ⟨symbol, hs, by rw [hn]; rfl⟩, rfl⟩
  exact List.mem_map.mp hm

theorem symbolTable_strict : (file.symbolTable demangle).Pairwise fun x y => x.1 < y.1 :=
  dedupByKey_strict (sortByKey_sorted _ _)

theorem labelFor_lookup (a runtime : Nat) : LabelFor demangle file a runtime
    ((((file.symbolTable demangle).reverse.find? fun x => x.1 ≤ a).map Prod.snd).getD (unknownLabel runtime)) := by
  cases h : (file.symbolTable demangle).reverse.find? fun x => x.1 ≤ a with
  | some x =>
      obtain ⟨hx, hle, hmax⟩ := (find_reverse_le symbolTable_strict).mp h
      obtain ⟨symbol, hs, name, hn, rfl⟩ := mem_symbolTable hx
      refine .inl ⟨symbol, hs, name, hn, rfl, hle, fun s' hs' hn' hle' => ?_⟩
      obtain ⟨y, hy, he⟩ := exists_symbolTable demangle hs' hn'
      rw [← he] at hle' ⊢
      exact hmax y hy hle'
  | none =>
      refine .inr ⟨fun s' hs' hn' hle' => ?_, rfl⟩
      obtain ⟨y, hy, he⟩ := exists_symbolTable demangle hs' hn'
      have hnone := List.find?_eq_none.mp h y (List.mem_reverse.mpr hy)
      rw [decide_eq_true_eq, he] at hnone
      exact hnone hle'

/-! ## Mappings -/

theorem Layout.resolved_eq_some {j : Segment} (h : L.resolved s = some j) :
    j ∈ L.segments ∧ j.fileOffset ≤ pageDown s.fileOffset ∧ pageDown s.fileOffset < j.fileOffset + j.fileSize := by
  have hr := List.find?_some h
  simp only [Bool.and_eq_true, decide_eq_true_eq] at hr
  exact ⟨List.mem_of_find?_eq_some h, hr⟩

theorem Layout.segmentAt_eq (L : Layout) (symbols dynamicSymbols : List ElfSymbol) (s : Segment) :
    (L.file symbols dynamicSymbols).segmentAt (pageDown s.fileOffset) = L.resolved s := by
  refine List.find?_congr fun j hj => ?_
  have := L.inFile j hj
  simp only [satAdd64, saturatingAdd, ge_iff_le, Nat.min_eq_left this]

variable {symbols dynamicSymbols : List ElfSymbol} {module : String} {maps : List MapLine}

/-- The mapping that the resolver makes of a segment. -/
def Layout.mappingOf (L : Layout) (s j : Segment) : Mapping :=
  ⟨L.start s, L.bias + pageUp (s.address + s.fileSize), satAdd64 j.address (pageDown s.fileOffset - j.fileOffset)⟩

theorem Layout.Loaded.mem_mappings (h : L.Loaded canonicalize module maps) {m : Mapping} :
    m ∈ (Resolver.new demangle canonicalize module (L.file symbols dynamicSymbols) maps).mappings ↔
      ∃ s ∈ L.segments, 0 < s.fileSize ∧ ∃ j, L.resolved s = some j ∧ m = L.mappingOf s j := by
  obtain ⟨mapped, hperm⟩ := h
  simp only [Resolver.new, List.mem_filterMap, hperm.mem_iff, List.mem_map, List.mem_filter, decide_eq_true_eq]
  constructor
  · rintro ⟨-, ⟨s, ⟨hs, hpos⟩, rfl⟩, hm⟩
    rw [ElfFile.mapping, Layout.mapLine, L.segmentAt_eq] at hm
    obtain ⟨j, hj, rfl⟩ := Option.map_eq_some_iff.mp hm
    exact ⟨s, hs, hpos, j, hj, rfl⟩
  · rintro ⟨s, hs, hpos, j, hj, rfl⟩
    refine ⟨_, ⟨s, ⟨hs, hpos⟩, rfl⟩, ?_⟩
    rw [ElfFile.mapping, Layout.mapLine, L.segmentAt_eq]
    exact Option.map_eq_some_iff.mpr ⟨j, hj, rfl⟩

/-- A mapping that holds the runtime address of `a` is that of the segment of `a`. -/
theorem Layout.Loaded.mapping_of_address (h : L.Loaded canonicalize module maps) (hs : s ∈ L.segments)
    (ha : s.Holds a) {m : Mapping}
    (hm : m ∈ (Resolver.new demangle canonicalize module (L.file symbols dynamicSymbols) maps).mappings)
    (hrange : m.runtimeStart ≤ L.bias + a ∧ L.bias + a < m.runtimeEnd) :
    ∃ j, L.resolved s = some j ∧ m = L.mappingOf s j := by
  obtain ⟨s', hs', -, j, hj, rfl⟩ := h.mem_mappings.mp hm
  simp only [Layout.mappingOf, Layout.start] at hrange
  have he : s = s' := L.eq_of_page hs hs' ha.page (by omega)
  subst he
  exact ⟨j, hj, rfl⟩

/-- The file address that the resolver computes for the runtime address of `a`. -/
theorem Layout.Loaded.fileAddress (h : L.Loaded canonicalize module maps) (hs : s ∈ L.segments)
    (ha : s.Holds a) :
    (Resolver.new demangle canonicalize module (L.file symbols dynamicSymbols) maps).fileAddress (L.bias + a) =
      (L.resolved s).map fun j =>
        satAdd64 (satAdd64 j.address (pageDown s.fileOffset - j.fileOffset)) (a - pageDown s.address) := by
  have hpos : 0 < s.fileSize := by obtain ⟨h₁, h₂⟩ := ha; omega
  have hpage := ha.page
  rw [Resolver.fileAddress]
  cases hj : L.resolved s with
  | none =>
      rw [List.find?_eq_none.mpr, Option.map_none, Option.map_none]
      intro m hm hrange
      simp only [ge_iff_le, Bool.and_eq_true, decide_eq_true_eq] at hrange
      obtain ⟨j, hj', -⟩ := h.mapping_of_address hs ha hm hrange
      rw [hj] at hj'
      cases hj'
  | some j =>
      cases hfind : (Resolver.new demangle canonicalize module (L.file symbols dynamicSymbols) maps).mappings.find?
          fun m => L.bias + a ≥ m.runtimeStart && L.bias + a < m.runtimeEnd with
      | none =>
          have := List.find?_eq_none.mp hfind (L.mappingOf s j) (h.mem_mappings.mpr ⟨s, hs, hpos, j, hj, rfl⟩)
          simp only [ge_iff_le, Bool.and_eq_true, decide_eq_true_eq] at this
          simp only [Layout.mappingOf, Layout.start] at this
          omega
      | some m =>
          have hrange := List.find?_some hfind
          simp only [ge_iff_le, Bool.and_eq_true, decide_eq_true_eq] at hrange
          obtain ⟨j', hj', rfl⟩ := h.mapping_of_address hs ha (List.mem_of_find?_eq_some hfind) hrange
          rw [hj] at hj'
          cases hj'
          have hsub : L.bias + a - (L.bias + pageDown s.address) = a - pageDown s.address := by omega
          simp only [Option.map_some, Layout.mappingOf, Layout.start, hsub]

/-! ## Probes -/

theorem Layout.probeOffset (L : Layout) (hs : s ∈ L.segments) (ha : s.Holds a) :
    (L.file symbols dynamicSymbols).probeOffset a = some (s.fileOffset + (a - s.address)) := by
  have hsat : ∀ s ∈ L.segments, satAdd64 s.address s.fileSize = s.address + s.fileSize := by
    intro s hs
    have := L.inMemory s hs
    refine saturatingAdd_of_le ?_
    simp only [pageUp] at this
    omega
  have hone : ∀ s' ∈ L.segments, s'.address ≤ a ∧ a < satAdd64 s'.address s'.fileSize → s' = s := by
    intro s' hs' h
    rw [hsat s' hs'] at h
    exact L.eq_of_page hs' hs (Segment.Holds.page h) ha.page
  have hoff : satAdd64 s.fileOffset (a - s.address) = s.fileOffset + (a - s.address) := by
    have := L.inFile s hs
    obtain ⟨h₁, h₂⟩ := ha
    exact saturatingAdd_of_le (by omega)
  rw [ElfFile.probeOffset]
  cases h : (L.file symbols dynamicSymbols).segments.findSome? fun segment =>
      let addressEnd := satAdd64 segment.address segment.fileSize
      if a ≥ segment.address ∧ a < addressEnd then
        some (satAdd64 segment.fileOffset (a - segment.address)) else none with
  | none =>
      have hs' := List.findSome?_eq_none_iff.mp h s hs
      simp only [hsat s hs, ge_iff_le] at hs'
      rw [if_pos (show _ ∧ _ from ha)] at hs'
      cases hs'
  | some o =>
      obtain ⟨s', hs', ho⟩ := List.exists_of_findSome?_eq_some h
      simp only [ge_iff_le] at ho
      split at ho
      · rename_i hr
        rw [hone s' hs' hr, hoff] at ho
        exact ho.symm ▸ rfl
      · cases ho

theorem selectSymbol_ok {requested : String} {selected : SelectedSymbol}
    (h : selectSymbol demangle file requested = .ok selected) :
    file.probeOffset selected.address = some selected.probeOffset := by
  unfold selectSymbol at h
  split at h
  · cases h
  · split at h
    · cases h; assumption
    · cases h
  · cases h

/-- A probe is always where the function runs. -/
theorem Layout.probe_runtime (L : Layout) (hs : s ∈ L.segments) (ha : s.Holds a) {requested : String}
    {selected : SelectedSymbol}
    (h : selectSymbol demangle (L.file symbols dynamicSymbols) requested = .ok selected)
    (he : selected.address = a) :
    L.start s + (selected.probeOffset - pageDown s.fileOffset) = L.bias + a := by
  have hp := selectSymbol_ok h
  rw [he, L.probeOffset hs ha] at hp
  have hpage := L.page_offset hs
  obtain ⟨h₁, h₂⟩ := ha
  rw [← Option.some.inj hp, Layout.start]
  omega

/-! ## Labels -/

theorem Layout.OffsetResolves.fileAddress (h : L.Loaded canonicalize module maps) (hs : s ∈ L.segments)
    (ha : s.Holds a) (ho : L.OffsetResolves s) :
    (Resolver.new demangle canonicalize module (L.file symbols dynamicSymbols) maps).fileAddress (L.bias + a) =
      some a := by
  obtain ⟨j, hj, he⟩ := ho
  have hjr := (L.resolved_eq_some hj).2
  have hpage := L.page_offset hs
  have hmem := L.inMemory s hs
  have hup := ha.page
  obtain ⟨h₁, h₂⟩ := ha
  rw [h.fileAddress hs ⟨h₁, h₂⟩, hj, Option.map_some]
  have hin : satAdd64 j.address (pageDown s.fileOffset - j.fileOffset) = pageDown s.address := by
    rw [satAdd64, saturatingAdd_of_le] <;> omega
  rw [hin, satAdd64, saturatingAdd_of_le] <;> congr 1 <;> omega

theorem frames_singleton (r : Resolver) (address : Nat) : r.frames [address] = [r.frame address] := rfl

theorem Layout.symbolizes (h : L.Loaded canonicalize module maps) (hs : s ∈ L.segments) (ha : s.Holds a)
    (ho : L.OffsetResolves s) :
    L.Symbolizes demangle canonicalize module (L.file symbols dynamicSymbols) maps s a := by
  refine ⟨⟨_, frames_singleton _ _, ?_⟩, fun requested selected hsel he => L.probe_runtime hs ha hsel he⟩
  simp only [Resolver.frame, ho.fileAddress h hs ha, Option.bind_some]
  exact labelFor_lookup a (L.bias + a)

/-! ## One symbol tells the address that was looked up -/

def probeSymbol (x : Nat) : ElfSymbol := ⟨true, x, some "f"⟩

theorem unknownLabel_ne (runtime : Nat) : unknownLabel runtime ≠ "f" := by
  intro h
  have hl := congrArg String.length h
  simp only [unknownLabel, String.length_append] at hl
  have h₁ : "[unknown 0x".length = 11 := rfl
  have h₂ : "f".length = 1 := rfl
  omega

theorem textSymbols_probe {x : Nat} (hx : x ≠ 0) :
    (L.file [probeSymbol x] []).textSymbols = [probeSymbol x] := by
  simp [ElfFile.textSymbols, Layout.file, probeSymbol, hx]

theorem labelFor_probe {x runtime : Nat} {label : String} (hx : x ≠ 0)
    (h : LabelFor (fun _ => none) (L.file [probeSymbol x] []) a runtime label) : label = "f" ↔ x ≤ a := by
  rw [LabelFor, textSymbols_probe hx] at h
  rcases h with ⟨y, hy, name, hn, rfl, hle, -⟩ | ⟨hnone, rfl⟩
  · rw [List.mem_singleton.mp hy] at hn hle
    cases hn
    exact ⟨fun _ => hle, fun _ => rfl⟩
  · have hgt := hnone (probeSymbol x) (List.mem_singleton.mpr rfl) rfl
    exact ⟨fun he => absurd he (unknownLabel_ne runtime), fun hle => absurd hle hgt⟩

theorem symbols_probe {x : Nat} (hx : x ≠ 0) :
    (Resolver.new (fun _ => none) canonicalize module (L.file [probeSymbol x] []) maps).symbols = [(x, "f")] := by
  rw [Resolver.new, ElfFile.symbolTable, textSymbols_probe hx]
  rfl

theorem frame_probe {r : Resolver} {x : Nat} (hr : r.symbols = [(x, "f")]) (address : Nat) :
    (r.frame address).label = "f" ↔ ∃ fa, r.fileAddress address = some fa ∧ x ≤ fa := by
  cases hfa : r.fileAddress address with
  | none => simp [Resolver.frame, hfa, unknownLabel_ne]
  | some fa => by_cases hle : x ≤ fa <;> simp [Resolver.frame, hfa, hr, hle, unknownLabel_ne]

/-- The map table with nothing but the segments of the layout. -/
def Layout.mapTable (L : Layout) : List MapLine :=
  (L.segments.filter fun s => 0 < s.fileSize).map (L.mapLine "module")

theorem Layout.loaded_mapTable (L : Layout) : L.Loaded some "module" L.mapTable := by
  refine ⟨fun _ => "module", ?_⟩
  rw [List.filter_eq_self.mpr, Layout.mapTable]
  intro line hl
  obtain ⟨s, -, rfl⟩ := List.mem_map.mp hl
  rfl

/-- The first byte of a segment has the file address of the segment that the resolver takes. -/
theorem Layout.Loaded.fileAddress_address (h : L.Loaded canonicalize module maps) (hs : s ∈ L.segments)
    (hpos : 0 < s.fileSize) {j : Segment} (hj : L.resolved s = some j) :
    (Resolver.new demangle canonicalize module (L.file symbols dynamicSymbols) maps).fileAddress
      (L.bias + s.address) =
        some (j.address + (pageDown s.fileOffset - j.fileOffset) + (s.address - pageDown s.address)) := by
  obtain ⟨hjm, hjr⟩ := L.resolved_eq_some hj
  have hpage := L.page_offset hs
  have hcong := L.congruent j hjm
  have hmem := L.inMemory j hjm
  rw [h.fileAddress hs ⟨le_refl _, by omega⟩, hj, Option.map_some]
  simp only [pageUp, pageDown] at hmem hjr ⊢
  rw [satAdd64, satAdd64, saturatingAdd_of_le (a := j.address), saturatingAdd_of_le] <;> omega

/-- A right label for a table with one symbol says whether the file address is behind the symbol. -/
theorem le_iff_of_labelFor {x runtime : Nat} (hx : x ≠ 0)
    (h : ∃ f, (Resolver.new (fun _ => none) canonicalize module (L.file [probeSymbol x] []) maps).frames [runtime] =
      [f] ∧ LabelFor (fun _ => none) (L.file [probeSymbol x] []) a runtime f.label) :
    x ≤ a ↔ ∃ fa, (Resolver.new (fun _ => none) canonicalize module (L.file [probeSymbol x] [])
      maps).fileAddress runtime = some fa ∧ x ≤ fa := by
  obtain ⟨f, hf, hl⟩ := h
  rw [frames_singleton, List.singleton_inj] at hf
  rw [← labelFor_probe hx hl, ← frame_probe (symbols_probe hx), hf]

theorem Layout.offsetResolves_of_frames (L : Layout) (hs : s ∈ L.segments) (hpos : 0 < s.fileSize)
    (h : ∀ x, x ≠ 0 → ∃ f, (Resolver.new (fun _ => none) some "module" (L.file [probeSymbol x] [])
      L.mapTable).frames [L.bias + s.address] = [f] ∧
        LabelFor (fun _ => none) (L.file [probeSymbol x] []) s.address (L.bias + s.address) f.label) :
    L.OffsetResolves s := by
  have hpage := L.page_offset hs
  cases hj : L.resolved s with
  | none =>
      have hne : s.address ≠ 0 := by
        intro h0
        have := List.find?_eq_none.mp hj s hs
        simp only [Bool.and_eq_true, decide_eq_true_eq] at this
        omega
      obtain ⟨fa, hfa, -⟩ := (le_iff_of_labelFor hne (h _ hne)).mp (le_refl _)
      rw [L.loaded_mapTable.fileAddress hs ⟨le_refl _, by omega⟩, hj] at hfa
      cases hfa
  | some j =>
      refine ⟨j, hj, ?_⟩
      have hjr := (L.resolved_eq_some hj).2
      generalize hx : j.address + (pageDown s.fileOffset - j.fileOffset) + (s.address - pageDown s.address) = fa
      have hkey : ∀ x, x ≠ 0 → (x ≤ s.address ↔ x ≤ fa) := by
        intro x hx0
        have := le_iff_of_labelFor hx0 (h x hx0)
        simpa only [L.loaded_mapTable.fileAddress_address hs hpos hj, hx, Option.some.injEq, exists_eq_left'] using this
      -- two addresses with the same symbols up to them are equal
      have h₁ := hkey fa
      have h₂ := hkey s.address
      omega

end SliceProfiler
