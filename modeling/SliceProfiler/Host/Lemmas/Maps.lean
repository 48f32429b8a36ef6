import SliceProfiler.Host.Maps

/-!
# What the resolver reads of the map table
-/

namespace SliceProfiler

open Lib

variable {e : MapEntry} {table : List MapEntry}

/-- No digit is a blank or a hyphen. -/
theorem isWord_paddedHex (width n : Nat) : IsWord (paddedHex width n) := by
  refine ⟨paddedHex_ne_nil width n, fun c hc => ?_⟩
  obtain ⟨d, hd, rfl⟩ := isHex_paddedHex width n c hc
  have hall : ∀ d < 16, isWhitespace (Nat.digitChar d) = false := by decide
  exact hall d hd

theorem IsWord.append {l l' : List Char} (h : IsWord l) (h' : IsWord l') : IsWord (l ++ l') := by
  refine ⟨by simp [h.1], fun c hc => ?_⟩
  rcases List.mem_append.mp hc with hc | hc
  · exact h.2 c hc
  · exact h'.2 c hc

theorem isWord_range (start stop : Nat) : IsWord (paddedHex 8 start ++ '-' :: paddedHex 8 stop) :=
  (isWord_paddedHex 8 start).append ((by decide : IsWord ['-']).append (isWord_paddedHex 8 stop))

/-- The words of a line are those in front of the path and those of the path. -/
theorem words_line (h : e.Shown) : words isWhitespace e.line =
    (paddedHex 8 e.start ++ '-' :: paddedHex 8 e.stop) :: e.perms :: paddedHex 8 e.offset :: e.device :: e.inode ::
      words isWhitespace e.path := by
  have hoffset := isWord_paddedHex 8 e.offset
  have hrange := isWord_range e.start e.stop
  rw [MapEntry.line, words_word hrange.1 hrange.2 isWhitespace_space, words_word h.perms.1 h.perms.2 isWhitespace_space,
    words_word hoffset.1 hoffset.2 isWhitespace_space, words_word h.device.1 h.device.2 isWhitespace_space,
    words_word h.inode.1 h.inode.2 isWhitespace_space, words_gap]
  intro c hc
  rw [List.eq_of_mem_replicate hc]
  exact isWhitespace_space

theorem splitOnce_range (start stop : Nat) : splitOnce '-' (paddedHex 8 start ++ '-' :: paddedHex 8 stop) =
    some (paddedHex 8 start, paddedHex 8 stop) :=
  splitOnce_eq_some.mpr ⟨rfl, not_mem_paddedHex (by decide) 8 start⟩

/-- The mark of a deleted file is a word of its own, so it is never at the end of a word. -/
theorem trim_deleted {l : List Char} (h : ∀ c ∈ l, isWhitespace c = false) :
    trimEndMatches [' ', '(', 'd', 'e', 'l', 'e', 't', 'e', 'd', ')'] l = l := by
  refine trimEndMatches_of_not_suffix fun hs => ?_
  have := h ' ' (hs.subset (by simp))
  rw [isWhitespace_space] at this
  cases this

theorem readMapLine_line (h : e.Shown) : readMapLine e.line = e.mapLine := by
  unfold readMapLine MapEntry.mapLine MapEntry.mapped
  rw [words_line h]
  cases hp : e.path with
  | nil => simp
  | cons c path =>
      have hc : isWhitespace c = false := h.path.2 c (by rw [hp]; rfl)
      have hne : (c :: path).takeWhile (fun c => !isWhitespace c) ≠ [] := by simp [hc]
      have hword : ∀ d ∈ (c :: path).takeWhile (fun c => !isWhitespace c), isWhitespace d = false :=
        fun d hd => by simpa using List.mem_takeWhile_imp hd
      obtain ⟨rest, hrest⟩ := words_takeWhile hne
      have hhead : ((c :: path).takeWhile fun c => !isWhitespace c).head? = some c := by simp [hc]
      rw [hrest]
      simp only [hhead, List.head?_cons, splitOnce_range, trim_deleted hword, parseHex_paddedHex 8 h.start,
        parseHex_paddedHex 8 h.stop,
        parseHex_paddedHex 8 h.offset, Option.bind_eq_bind, Option.bind_some]
      by_cases hslash : c = '/' <;> simp [hslash]

theorem not_mem_line (h : e.Shown) : '\n' ∉ e.line := by
  have hword : ∀ {l}, IsWord l → '\n' ∉ l := by
    intro l hl hm
    have hfeed : isWhitespace '\n' = true := by decide
    rw [hl.2 _ hm] at hfeed
    cases hfeed
  simp only [MapEntry.line, List.mem_append, List.mem_cons, List.mem_replicate, not_or, h.path.1, hword h.perms,
    hword h.device, hword h.inode, hword (isWord_paddedHex 8 _)]
  simp

theorem readMaps_tableText (h : ∀ e ∈ table, e.Shown) :
    readMaps (some (tableText table)) = table.filterMap MapEntry.mapLine := by
  have hlines : lines (table.flatMap fun e => e.line ++ ['\n']) = (table.map MapEntry.line).map chomp := by
    rw [← lines_flatMap, List.flatMap_map]
    intro line hl
    obtain ⟨e, he, rfl⟩ := List.mem_map.mp hl
    exact not_mem_line (h e he)
  rw [readMaps, Option.getD_some, tableText, String.toList_ofList, hlines, List.filterMap_map, List.filterMap_map]
  refine List.filterMap_congr fun e he => ?_
  have hreturn : isWhitespace '\r' = true := by decide
  rw [← readMapLine_line (h e he)]
  simp only [Function.comp, readMapLine, words_chomp hreturn]

variable {demangle canonicalize : String → Option String} {module : String} {file : ElfFile} {maps : List MapLine}

/-- Without a mapping of the module no address is known. -/
theorem frames_of_unmapped (h : ∀ line ∈ maps, canonicalize line.mapped ≠ some module) (addresses : List Nat) :
    (Resolver.new demangle canonicalize module file maps).frames addresses =
      (addresses.map fun a => ⟨none, unknownLabel a, none, some a⟩).reverse := by
  have hnone : (maps.filter fun line => canonicalize line.mapped == some module) = [] := by simpa using h
  have hframe : ∀ a, (Resolver.new demangle canonicalize module file maps).frame a =
      ⟨none, unknownLabel a, none, some a⟩ := by
    intro a
    simp [Resolver.frame, Resolver.fileAddress, Resolver.new, hnone]
  rw [Resolver.frames, funext hframe]

theorem canonicalize_of_mapLine
    (h : ∀ e ∈ table, ∀ mapped, e.mapped = some mapped → canonicalize mapped ≠ some module) :
    ∀ line ∈ table.filterMap MapEntry.mapLine, canonicalize line.mapped ≠ some module := by
  intro line hl
  obtain ⟨e, he, hline⟩ := List.mem_filterMap.mp hl
  obtain ⟨mapped, hmapped, rfl⟩ := Option.map_eq_some_iff.mp hline
  exact h e he mapped hmapped

end SliceProfiler
