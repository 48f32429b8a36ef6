import SliceProfiler.Host.Lemmas.Cpus
import SliceProfiler.Host.Lemmas.Maps
import SliceProfiler.Host.Status

/-!
# What is read of the status of a process
-/

namespace SliceProfiler

open Lib

variable {table : StatusTable} {key : String} {value : List Char}

theorem lines_statusText (h : table.Shown) : lines (statusText table).toList = (table.map statusLine).map chomp := by
  rw [statusText, String.toList_ofList, ← lines_flatMap, List.flatMap_map]
  intro line hl
  obtain ⟨field, hf, rfl⟩ := List.mem_map.mp hl
  obtain ⟨-, hkey, hvalue⟩ := h field hf
  simp [statusLine, hkey, hvalue]

theorem chomp_statusLine (field : String × List Char) :
    chomp (statusLine field) = statusLine (field.1, chomp field.2) := by
  have happend := chomp_append (field.1.toList ++ [':']) (by decide : '\t' ≠ '\r') field.2
  simpa [statusLine] using happend

/-- A line begins with the key of another line only when it is its own. -/
theorem prefix_statusLine {key blank : List Char} {field : String × List Char} (hkey : ':' ∉ key)
    (hf : ':' ∉ field.1.toList) (hb : blank <+: ['\t']) :
    key ++ ':' :: blank <+: statusLine field ↔ key = field.1.toList := by
  constructor
  · rintro ⟨rest, h⟩
    have hsplit : splitOnce ':' (statusLine field) = some (key, blank ++ rest) :=
      splitOnce_eq_some.mpr ⟨by simp [← h], hkey⟩
    have hself : splitOnce ':' (statusLine field) = some (field.1.toList, '\t' :: field.2) :=
      splitOnce_eq_some.mpr ⟨rfl, hf⟩
    exact congrArg Prod.fst (Option.some.inj (hsplit.symm.trans hself))
  · rintro rfl
    obtain ⟨rest, hrest⟩ := hb
    refine ⟨rest ++ field.2, ?_⟩
    have htab : blank ++ (rest ++ field.2) = '\t' :: field.2 := by
      rw [← List.append_assoc, hrest, List.singleton_append]
    rw [statusLine, List.append_assoc, List.cons_append, htab]

theorem find_statusLine {blank : List Char} (hb : blank <+: ['\t']) (hkey : ':' ∉ key.toList) (h : table.Shown) :
    ((table.map statusLine).map chomp).find? (fun line => (key.toList ++ ':' :: blank).isPrefixOf line) =
      (lookupKey key table).map fun value => statusLine (key, chomp value) := by
  induction table with
  | nil => rfl
  | cons field table ih =>
      obtain ⟨k, v⟩ := field
      have hrest := ih fun field hf => h field (List.mem_cons_of_mem _ hf)
      have hbegins : key.toList ++ ':' :: blank <+: statusLine (k, chomp v) ↔ key.toList = k.toList :=
        prefix_statusLine hkey (h (k, v) List.mem_cons_self).1 hb
      rw [String.toList_inj] at hbegins
      rw [List.map_cons, List.map_cons, List.find?_cons, chomp_statusLine, lookupKey]
      by_cases hk : key = k
      · subst hk
        have hyes : (key.toList ++ ':' :: blank).isPrefixOf (statusLine (key, chomp v)) = true :=
          List.isPrefixOf_iff_prefix.mpr (hbegins.mpr rfl)
        simp only [hyes, if_pos, Option.map_some]
      · have hno : (key.toList ++ ':' :: blank).isPrefixOf (statusLine (k, chomp v)) = false := by
          rw [← Bool.not_eq_true, List.isPrefixOf_iff_prefix, hbegins]
          exact hk
        simp only [hno, hk, if_false, hrest]

/-- The prefix of a field is dropped in the line that is found. -/
theorem findSome_dropPrefix (l : List (List Char)) (start : List Char) :
    l.findSome? (·.dropPrefix? start) = (l.find? fun line => start.isPrefixOf line).map (·.drop start.length) := by
  induction l with
  | nil => rfl
  | cons line l ih =>
      rw [List.findSome?_cons, List.find?_cons]
      cases hd : line.dropPrefix? start with
      | some rest =>
          obtain ⟨start', rfl, hs⟩ := List.dropPrefix?_eq_some_iff.mp hd
          rw [beq_iff_eq] at hs
          subst hs
          have hyes : start'.isPrefixOf (start' ++ rest) = true :=
            List.isPrefixOf_iff_prefix.mpr (List.prefix_append start' rest)
          simp [hyes]
      | none =>
          have hno : start.isPrefixOf line = false := by
            rw [← Bool.not_eq_true, List.isPrefixOf_iff_prefix]
            rintro ⟨rest, rfl⟩
            rw [List.dropPrefix?_append_of_beq rest (beq_self_eq_true start)] at hd
            cases hd
          simp [hno, ih]

/-- The text `start` is the key with its colon, with or without the tab. -/
theorem fieldAfter_statusText (start : String) {blank : List Char} (hb : blank <+: ['\t'])
    (hs : start.toList = key.toList ++ ':' :: blank) (hkey : ':' ∉ key.toList) (h : table.Shown) :
    fieldAfter start (statusText table) =
      (lookupKey key table).map fun value => ('\t' :: chomp value).drop blank.length := by
  rw [fieldAfter, findSome_dropPrefix, lines_statusText h, hs, find_statusLine hb hkey h]
  cases lookupKey key table with
  | none => rfl
  | some value => simp [statusLine, List.drop_append]

/-! ## The fields -/

theorem parseKernelTgid_statusText (h : table.Shown) : parseKernelTgid (statusText table) =
    (((lookupKey "NSpid" table).bind fun value => (words isWhitespace value).head?).bind fun value =>
      (parseUnsigned u32Max value).toOption).or
    ((lookupKey "Tgid" table).bind fun value => (parseUnsigned u32Max (trim isWhitespace value)).toOption) := by
  have hns : fieldAfter "NSpid:" (statusText table) = _ :=
    fieldAfter_statusText "NSpid:" List.nil_prefix (by decide : _ = "NSpid".toList ++ [':']) (by decide) h
  have htgid : fieldAfter "Tgid:" (statusText table) = _ :=
    fieldAfter_statusText "Tgid:" List.nil_prefix (by decide : _ = "Tgid".toList ++ [':']) (by decide) h
  rw [parseKernelTgid, hns, htgid]
  simp only [Option.bind_map, Function.comp_def, List.length_nil, List.drop_zero, words_cons isWhitespace_tab,
    words_chomp isWhitespace_return, trim_cons isWhitespace_tab, trim_chomp isWhitespace_return]

theorem words_statusLine {key : String} (hkey : IsWord key.toList) (value : List Char) :
    words isWhitespace (statusLine (key, chomp value)) = (key.toList ++ [':']) :: words isWhitespace value := by
  have hword : IsWord (key.toList ++ [':']) := hkey.append (by decide)
  have hline : statusLine (key, chomp value) = (key.toList ++ [':']) ++ '\t' :: chomp value := by simp [statusLine]
  rw [hline, words_word hword.1 hword.2 isWhitespace_tab, words_chomp isWhitespace_return]

theorem processExists_statusText (h : table.Shown) : processExists (some (statusText table)) =
    (((lookupKey "State" table).bind fun value => (words isWhitespace value).head?) != some ['Z']) := by
  have hfind := find_statusLine (List.nil_prefix : [] <+: ['\t']) (by decide : ':' ∉ "State".toList) h
  have hstart : "State:".toList = "State".toList ++ [':'] := by decide
  have hword : IsWord "State".toList := by decide
  rw [processExists, lines_statusText h, hstart, hfind, Option.bind_map]
  congr 2
  funext value
  rw [Function.comp_apply, words_statusLine hword, List.getElem?_cons_succ, List.head?_eq_getElem?]

theorem effectiveCapability_statusText (h : table.Shown) (bit : Nat) :
    effectiveCapability (some (statusText table)) bit =
      ((lookupKey "CapEff" table).bind fun value => parseHex u64Max (trim isWhitespace value)).any (·.testBit bit) := by
  have hcap : fieldAfter "CapEff:\t" (statusText table) = _ :=
    fieldAfter_statusText "CapEff:\t" List.prefix_rfl (by decide : _ = "CapEff".toList ++ [':', '\t']) (by decide) h
  rw [effectiveCapability, hcap]
  simp only [Option.bind_map, Function.comp_def, List.length_singleton, List.drop_succ_cons, List.drop_zero,
    trim_chomp isWhitespace_return]

/-! ## The fields of a process -/

variable {p : ProcessStatus}

theorem isWord_toDigits (n : Nat) : IsWord (Nat.toDigits 10 n) :=
  ⟨Nat.toDigits_ne_nil,
    fun _ hc => not_isWhitespace_of_isDigit (Nat.isDigit_of_mem_toDigits (by decide) (by decide) hc)⟩

theorem words_intercalate {w : List Char} (hw : IsWord w) (l : List (List Char)) :
    (words isWhitespace (['\t'].intercalate (w :: l))).head? = some w := by
  cases l with
  | nil => rw [List.intercalate_singleton, words_singleton hw.1 hw.2, List.head?_cons]
  | cons w' l =>
      rw [List.intercalate_cons_cons, List.append_assoc, List.singleton_append, words_word hw.1 hw.2 isWhitespace_tab,
        List.head?_cons]

theorem trim_word {w : List Char} (hw : IsWord w) : trim isWhitespace w = w := by
  rw [← trim_blank_concat isWhitespace_space, trim_word_concat hw.1 hw.2 isWhitespace_space]

theorem parseUnsigned_toDigits {n max : Nat} (h : n ≤ max) :
    (parseUnsigned max (Nat.toDigits 10 n)).toOption = some n := by
  rw [parseUnsigned_eq_ok.mpr ⟨numeral_toDigits n, h⟩]
  rfl

theorem ProcessStatus.ShownIn.parseKernelTgid (h : p.ShownIn table) :
    parseKernelTgid (statusText table) = some (p.ids.headD p.tgid) := by
  rw [parseKernelTgid_statusText h.shown, h.ids, h.tgid]
  cases hids : p.ids with
  | nil => simp [trim_word (isWord_toDigits p.tgid), parseUnsigned_toDigits h.tgid_le]
  | cons id ids =>
      have hid : id ≤ u32Max := h.ids_le id (by rw [hids]; exact List.mem_cons_self)
      simp [words_intercalate (isWord_toDigits id), parseUnsigned_toDigits hid]

theorem ProcessStatus.ShownIn.processExists (h : p.ShownIn table) :
    processExists (some (statusText table)) = (p.state != 'Z') := by
  have hword : words isWhitespace (p.state :: ' ' :: p.stateName) = [p.state] :: words isWhitespace p.stateName :=
    words_word (l := [p.state]) (by simp) (by simpa using h.stateWord) isWhitespace_space p.stateName
  rw [processExists_statusText h.shown, h.state, Option.bind_some, hword, List.head?_cons]
  simp [bne, Bool.beq_eq_decide_eq]

theorem ProcessStatus.ShownIn.effectiveCapability (h : p.ShownIn table) (bit : Nat) :
    effectiveCapability (some (statusText table)) bit = p.capEff.testBit bit := by
  rw [effectiveCapability_statusText h.shown, h.capEff, Option.bind_some, trim_word (isWord_paddedHex 16 p.capEff),
    parseHex_paddedHex 16 h.capEff_le, Option.any_some]

end SliceProfiler
