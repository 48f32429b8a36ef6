import SliceProfiler.Cli.Symbols
import SliceProfiler.Lib.Text

/-!
# The listing and the selection of a function
-/

namespace SliceProfiler.Cli

open Lib

variable {demangle : String → Option String} {toLowercase : String → String} {path name : String} {file : ElfFile}
  {needle : Option String} {entries : List SymbolCandidate} {e : SymbolCandidate} {a : Nat}

theorem entryKey_injective : Function.Injective entryKey := by
  rintro ⟨raw, demangled, address⟩ ⟨raw', demangled', address'⟩ h
  simp only [entryKey, EmbeddingLike.apply_eq_iff_eq, Prod.mk.injEq] at h
  simp [h]

theorem mem_dedup_sort {α κ : Type} [LinearOrder κ] {key : α → κ} (hk : Function.Injective key) {l : List α} {a : α} :
    a ∈ dedupByKey key (sortByKey key l) ↔ a ∈ l := by
  have h : key a ∈ (dedupByKey key (sortByKey key l)).map key ↔ key a ∈ (sortByKey key l).map key := mem_keys_dedupByKey
  simpa [hk.eq_iff] using h

theorem needle_any :
    ((needle.map toLowercase).any fun text => !decide (text.toList <:+: (toLowercase name).toList)) = false ↔
    ∀ text, needle = some text → (toLowercase text).toList <:+: (toLowercase name).toList := by
  cases needle <;> simp

theorem mem_symbolEntries : e ∈ symbolEntries demangle toLowercase file needle ↔
    Names demangle file e ∧ Contains toLowercase needle e := by
  simp only [symbolEntries, List.mem_filterMap, List.mem_filter, Option.bind_eq_some_iff, Option.ite_none_left_eq_some,
    Bool.not_eq_true, needle_any, Option.some.injEq]
  constructor
  · rintro ⟨symbol, ⟨hm, ht⟩, raw, hn, hc, rfl⟩
    exact ⟨⟨symbol, hm, ht, hn, rfl, rfl⟩, hc⟩
  · rintro ⟨⟨symbol, hm, ht, hn, hd, ha⟩, hc⟩
    refine ⟨symbol, ⟨hm, ht⟩, e.rawName, hn, ?_, ?_⟩
    · exact hd ▸ hc
    · rw [← hd, ← ha]

theorem listSymbols_eq_ok : listSymbols demangle toLowercase path file needle = .ok entries ↔
    entries = dedupByKey entryKey (sortByKey entryKey (symbolEntries demangle toLowercase file needle)) ∧
      entries ≠ [] := by
  simp only [listSymbols, bind_eq_ok, ensure_eq_ok, exists_const, Except.ok.injEq]
  constructor
  · rintro ⟨hne, rfl⟩
    exact ⟨rfl, hne⟩
  · rintro ⟨rfl, hne⟩
    exact ⟨hne, rfl⟩

theorem mem_listSymbols (h : listSymbols demangle toLowercase path file needle = .ok entries) :
    e ∈ entries ↔ Names demangle file e ∧ Contains toLowercase needle e := by
  rw [(listSymbols_eq_ok.mp h).1, mem_dedup_sort entryKey_injective, mem_symbolEntries]

theorem sorted_listSymbols (h : listSymbols demangle toLowercase path file needle = .ok entries) :
    entries.Pairwise fun e e' => entryKey e < entryKey e' :=
  (listSymbols_eq_ok.mp h).1 ▸ dedupByKey_strict (sortByKey_sorted _ _)

/-! ## The candidates of a name -/

theorem mem_symbolCandidates : e ∈ symbolCandidates demangle file name ↔
    Names demangle file e ∧ e.demangledName = name ∧ e.address ≠ 0 := by
  simp only [symbolCandidates, ElfFile.textSymbols, List.mem_filterMap, List.mem_filter, Option.bind_eq_some_iff,
    Option.ite_none_right_eq_some, Option.some.injEq, Bool.and_eq_true, bne_iff_ne]
  constructor
  · rintro ⟨symbol, ⟨hm, ht, h0⟩, raw, hn, hd, rfl⟩
    exact ⟨⟨symbol, hm, ht, hn, rfl, rfl⟩, hd, h0⟩
  · rintro ⟨⟨symbol, hm, ht, hn, hd, ha⟩, rfl, h0⟩
    refine ⟨symbol, ⟨hm, ht, ha ▸ h0⟩, e.rawName, hn, hd.symm, ?_⟩
    rw [← hd, ← ha]

/-- The candidates that are left, one for each address. -/
def candidatesOf (demangle : String → Option String) (file : ElfFile) (name : String) : List SymbolCandidate :=
  dedupByKey (·.address) (sortByKey (·.address) (symbolCandidates demangle file name))

theorem sorted_candidatesOf : ((candidatesOf demangle file name).map (·.address)).Pairwise (· < ·) :=
  List.pairwise_map.mpr (dedupByKey_strict (sortByKey_sorted _ _))

theorem of_mem_candidatesOf (h : e ∈ candidatesOf demangle file name) :
    Names demangle file e ∧ e.demangledName = name ∧ e.address ≠ 0 :=
  mem_symbolCandidates.mp (mem_sortByKey.mp ((dedupByKey_sublist _).subset h))

theorem contains_none (toLowercase : String → String) (e : SymbolCandidate) : Contains toLowercase none e := by
  intro text h
  cases h

theorem mem_addresses (h : listSymbols demangle toLowercase path file none = .ok entries) :
    a ∈ (candidatesOf demangle file name).map (·.address) ↔ ListedAt entries name a := by
  rw [candidatesOf, mem_keys_dedupByKey]
  simp only [List.mem_map, mem_sortByKey, mem_symbolCandidates, ListedAt, mem_listSymbols h]
  constructor
  · rintro ⟨e, ⟨hn, hd, h0⟩, rfl⟩
    exact ⟨h0, e, ⟨hn, contains_none toLowercase e⟩, hd, rfl⟩
  · rintro ⟨h0, e, ⟨hn, -⟩, hd, rfl⟩
    exact ⟨e, ⟨hn, hd, h0⟩, rfl⟩

theorem selectSymbol_eq (demangle : String → Option String) (file : ElfFile) (name : String) :
    selectSymbol demangle file name = match candidatesOf demangle file name with
      | [] => .error (.noFunction name)
      | [candidate] =>
          match file.probeOffset candidate.address with
          | some probeOffset => .ok ⟨candidate.rawName, candidate.demangledName, candidate.address, probeOffset⟩
          | none => .error .noOffset
      | many => .error (.ambiguous name (many.map (·.address))) := rfl

/-- Two increasing lists with the same numbers are equal. -/
theorem eq_of_strict {l l' : List Nat} (h : l.Pairwise (· < ·)) (h' : l'.Pairwise (· < ·)) (hm : ∀ a, a ∈ l ↔ a ∈ l') :
    l = l' :=
  ((List.perm_ext_iff_of_nodup h.nodup h'.nodup).mpr hm).eq_of_pairwise
    (fun _ _ _ _ hab hba => absurd hab hba.asymm) h h'

theorem noFunction_iff (h : listSymbols demangle toLowercase path file none = .ok entries) :
    selectSymbol demangle file name = .error (.noFunction name) ↔ ∀ a, ¬ ListedAt entries name a := by
  have hmem : ∀ a, a ∈ (candidatesOf demangle file name).map (·.address) ↔ ListedAt entries name a :=
    fun _ => mem_addresses h
  rw [selectSymbol_eq]
  cases hc : candidatesOf demangle file name with
  | nil => simp [← hmem, hc]
  | cons c l =>
      have hl : ListedAt entries name c.address := (hmem _).mp (by simp [hc])
      cases l with
      | nil => cases ho : file.probeOffset c.address <;> simpa [ho] using Exists.intro _ hl
      | cons c' l => simpa using Exists.intro _ hl

theorem ambiguous_iff (h : listSymbols demangle toLowercase path file none = .ok entries) (addresses : List Nat) :
    selectSymbol demangle file name = .error (.ambiguous name addresses) ↔
      2 ≤ addresses.length ∧ addresses.Pairwise (· < ·) ∧ ∀ a, a ∈ addresses ↔ ListedAt entries name a := by
  have hmem : ∀ a, a ∈ (candidatesOf demangle file name).map (·.address) ↔ ListedAt entries name a :=
    fun _ => mem_addresses h
  have hsorted : ((candidatesOf demangle file name).map (·.address)).Pairwise (· < ·) := sorted_candidatesOf
  have hiff : (addresses.Pairwise (· < ·) ∧ ∀ a, a ∈ addresses ↔ ListedAt entries name a) ↔
      (candidatesOf demangle file name).map (·.address) = addresses := by
    constructor
    · rintro ⟨hs, hm⟩
      exact eq_of_strict hsorted hs fun a => (hmem a).trans (hm a).symm
    · rintro rfl
      exact ⟨hsorted, hmem⟩
  rw [hiff, selectSymbol_eq]
  cases hc : candidatesOf demangle file name with
  | nil => cases addresses <;> simp
  | cons c l =>
      cases l with
      | nil =>
          have hone : ¬ (2 ≤ addresses.length ∧ [c].map (·.address) = addresses) := by
            rintro ⟨hle, rfl⟩
            simp at hle
          cases ho : file.probeOffset c.address <;> simpa [ho] using hone
      | cons c' l =>
          simp only [Except.error.injEq, SelectError.ambiguous.injEq, true_and]
          refine ⟨?_, And.right⟩
          rintro rfl
          simp

theorem selectSymbol_of_one (h : listSymbols demangle toLowercase path file none = .ok entries)
    (ha : ∀ b, ListedAt entries name b ↔ b = a) :
    ∃ e ∈ entries, e.address = a ∧ selectSymbol demangle file name =
      (file.probeOffset a).elim (.error .noOffset) fun offset => .ok ⟨e.rawName, name, a, offset⟩ := by
  have hmem : ∀ b, b ∈ (candidatesOf demangle file name).map (·.address) ↔ b = a :=
    fun b => (mem_addresses h).trans (ha b)
  have hone : (candidatesOf demangle file name).map (·.address) = [a] :=
    eq_of_strict sorted_candidatesOf (List.pairwise_singleton _ _) fun b => by simp [hmem]
  obtain ⟨c, hc, rfl⟩ := List.map_eq_singleton_iff.mp hone
  obtain ⟨hnames, rfl, -⟩ := of_mem_candidatesOf (hc ▸ List.mem_singleton_self c)
  refine ⟨c, (mem_listSymbols h).mpr ⟨hnames, contains_none toLowercase c⟩, rfl, ?_⟩
  rw [selectSymbol_eq, hc]
  cases ho : file.probeOffset c.address <;> simp [ho]

/-! ## The lines -/

theorem splitOnce_entryLine (e : SymbolCandidate) :
    splitOnce '\t' (entryLine e).toList = some ('0' :: 'x' :: paddedHex 16 e.address, e.demangledName.toList) := by
  refine splitOnce_eq_some.mpr ⟨by simp [entryLine], ?_⟩
  simpa using not_mem_paddedHex (by decide) 16 e.address

end SliceProfiler.Cli
