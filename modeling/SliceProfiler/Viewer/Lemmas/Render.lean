import SliceProfiler.Lib.Hex
import SliceProfiler.Lib.JsonRead
import SliceProfiler.Viewer.Render

/-!
# The replaced characters
-/

namespace SliceProfiler.Viewer

open Lib JsonText

/-- The three replacements, in one step. -/
def scriptChar (c : Char) : List Char :=
  if c = '&' then ['\\', 'u', '0', '0', '2', '6']
  else if c = '<' then ['\\', 'u', '0', '0', '3', 'c']
  else if c = '>' then ['\\', 'u', '0', '0', '3', 'e']
  else [c]

variable {enc : Char → List Char} {c : Char} {t : Tree}

theorem replace_replace (l : List Char) :
    replace '>' ['\\', 'u', '0', '0', '3', 'e'] (replace '<' ['\\', 'u', '0', '0', '3', 'c']
      (replace '&' ['\\', 'u', '0', '0', '2', '6'] l)) = l.flatMap scriptChar := by
  simp only [replace, List.flatMap_assoc]
  refine List.flatMap_congr fun c _ => ?_
  unfold scriptChar
  by_cases hamp : c = '&'
  · subst hamp; decide
  · by_cases hlt : c = '<'
    · subst hlt; decide
    · by_cases hgt : c = '>' <;> simp [hamp, hlt, hgt]

theorem scriptChar_safe : '<' ∉ scriptChar c ∧ '>' ∉ scriptChar c ∧ '&' ∉ scriptChar c := by
  unfold scriptChar
  split_ifs with hamp hlt hgt
  · decide
  · decide
  · decide
  · simp [Ne.symm hamp, Ne.symm hlt, Ne.symm hgt]

/-- Only the three characters are replaced. -/
theorem scriptChar_of_ne (h : c ≠ '&' ∧ c ≠ '<' ∧ c ≠ '>') : scriptChar c = [c] := by
  rw [scriptChar, if_neg h.1, if_neg h.2.1, if_neg h.2.2]

theorem scriptChar_of_inEscape (h : inEscape c = true) : scriptChar c = [c] := by
  refine scriptChar_of_ne ⟨?_, ?_, ?_⟩ <;> rintro rfl <;> revert h <;> decide

theorem scriptChar_of_isMark (h : isMark c = true) : scriptChar c = [c] := by
  refine scriptChar_of_ne ⟨?_, ?_, ?_⟩ <;> rintro rfl <;> revert h <;> decide

/-- A character is encoded as before, or it is one of the three. -/
theorem flatMap_scriptChar (h : Decodes enc) (c : Char) : (enc c).flatMap scriptChar = enc c ∨
    (enc c).flatMap scriptChar = scriptChar c ∧ (c = '&' ∨ c = '<' ∨ c = '>') := by
  rcases h.cases c with henc | hesc
  · by_cases hne : c ≠ '&' ∧ c ≠ '<' ∧ c ≠ '>'
    · left
      rw [henc, List.flatMap_singleton, scriptChar_of_ne hne]
    · right
      refine ⟨by rw [henc, List.flatMap_singleton], ?_⟩
      by_contra hc
      exact hne ⟨fun h => hc (.inl h), fun h => hc (.inr (.inl h)), fun h => hc (.inr (.inr h))⟩
  · exact .inl (flatMap_of_fixed fun x hx => scriptChar_of_inEscape (hesc x hx))

/-- The replaced characters are still read back as themselves. -/
theorem decodes_scriptChar (h : Decodes enc) : Decodes fun c => (enc c).flatMap scriptChar := by
  constructor
  · intro c l
    rcases flatMap_scriptChar h c with heq | ⟨heq, hc⟩
    · rw [heq]
      exact h.read c l
    · rw [heq]
      rcases hc with rfl | rfl | rfl <;> rfl
  · intro c l
    rcases flatMap_scriptChar h c with heq | ⟨heq, hc⟩
    · rw [heq]
      exact h.quote c l
    · rw [heq]
      rcases hc with rfl | rfl | rfl <;> rintro ⟨⟩

theorem scriptSafeJson_eq (enc : Char → List Char) (t : Tree) :
    scriptSafeJson enc t = t.print fun c => (enc c).flatMap scriptChar := by
  rw [scriptSafeJson, replace_replace, flatMap_print fun c => scriptChar_of_isMark]

theorem mem_scriptSafeJson (hc : c ∈ scriptSafeJson enc t) : c ≠ '<' ∧ c ≠ '>' ∧ c ≠ '&' := by
  rw [scriptSafeJson, replace_replace] at hc
  obtain ⟨d, -, hd⟩ := List.mem_flatMap.mp hc
  obtain ⟨hlt, hgt, hamp⟩ := scriptChar_safe (c := d)
  refine ⟨?_, ?_, ?_⟩ <;> rintro rfl
  · exact hlt hd
  · exact hgt hd
  · exact hamp hd

/-! ## The serializer -/

theorem readChar_control (hc : c.toNat < 0x20) (l : List Char) :
    readChar ('\\' :: 'u' :: '0' :: '0' :: Nat.digitChar (c.toNat / 16) :: Nat.digitChar (c.toNat % 16) :: l) =
      some (c, l) := by
  have hzero : hexValue '0' = some 0 := by decide
  have hhigh := hexValue_digitChar (c.toNat / 16) (by omega)
  have hlow := hexValue_digitChar (c.toNat % 16) (by omega)
  have hvalue : ((0 * 16 + 0) * 16 + c.toNat / 16) * 16 + c.toNat % 16 = c.toNat := by omega
  have hhex : readHex ('0' :: '0' :: Nat.digitChar (c.toNat / 16) :: Nat.digitChar (c.toNat % 16) :: l) =
      some (c.toNat, l) := by
    simp only [readHex, hzero, hhigh, hlow, Option.bind_eq_bind, Option.bind_some, hvalue]
  have hpair : ¬ (0xD800 ≤ c.toNat ∧ c.toNat ≤ 0xDBFF) := by omega
  have hlone : ¬ (0xDC00 ≤ c.toNat ∧ c.toNat ≤ 0xDFFF) := by omega
  rw [readChar, if_pos rfl, List.head?_cons, if_pos rfl, List.tail_cons]
  simp only [readUnicode, hhex, Option.bind_eq_bind, Option.bind_some, hpair, hlone, ↓reduceIte, Char.ofNat_toNat]

theorem readChar_serdeEscape (c : Char) (l : List Char) : readChar (serdeEscape c ++ l) = some (c, l) ∧
    (serdeEscape c ++ l).head? ≠ some '"' := by
  have hchar : ∀ {c : Char} {n : Nat}, c.toNat = n → c = Char.ofNat n := fun h => by rw [← h, Char.ofNat_toNat]
  unfold serdeEscape
  split_ifs with hquote hback hb ht hn hf hr hcontrol
  · subst hquote; exact ⟨rfl, by rintro ⟨⟩⟩
  · subst hback; exact ⟨rfl, by rintro ⟨⟩⟩
  · obtain rfl := hchar hb; exact ⟨rfl, by rintro ⟨⟩⟩
  · subst ht; exact ⟨rfl, by rintro ⟨⟩⟩
  · subst hn; exact ⟨rfl, by rintro ⟨⟩⟩
  · obtain rfl := hchar hf; exact ⟨rfl, by rintro ⟨⟩⟩
  · subst hr; exact ⟨rfl, by rintro ⟨⟩⟩
  · exact ⟨readChar_control hcontrol l, by rintro ⟨⟩⟩
  · refine ⟨?_, fun h => hquote (Option.some.inj h)⟩
    simp only [List.cons_append, List.nil_append, readChar, hback, hquote, hcontrol, or_self, ↓reduceIte]

theorem decodes_serdeEscape : Decodes serdeEscape :=
  ⟨fun c l => (readChar_serdeEscape c l).1, fun c l => (readChar_serdeEscape c l).2⟩

end SliceProfiler.Viewer
