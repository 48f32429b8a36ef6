import SliceProfiler.Lib.Text

/-!
# Lines and words

The lines of a text, and the words between its blanks.
-/

namespace Lib

section Words

variable {α : Type} {p : α → Bool} {c : α} {l l' gap : List α}

/-- `str::split_whitespace`, where `p` tells the blanks. -/
def words (p : α → Bool) (l : List α) : List (List α) := (l.splitOnP p).filter fun w => !w.isEmpty

@[simp] theorem words_nil : words p [] = [] := by simp [words]

/-- Words end at a blank. -/
theorem words_append_cons (hc : p c = true) (l l' : List α) : words p (l ++ c :: l') = words p l ++ words p l' := by
  simp [words, List.splitOnP_append_cons l l' hc]

theorem words_cons (hc : p c = true) (l : List α) : words p (c :: l) = words p l := by
  simpa using words_append_cons hc [] l

theorem words_concat (hc : p c = true) (l : List α) : words p (l ++ [c]) = words p l := by
  simpa using words_append_cons hc l []

theorem words_singleton (hne : l ≠ []) (h : ∀ c ∈ l, p c = false) : words p l = [l] := by
  simp [words, List.splitOnP_eq_singleton h, hne]

theorem words_gap (h : ∀ c ∈ gap, p c = true) (l : List α) : words p (gap ++ l) = words p l := by
  induction gap with
  | nil => rfl
  | cons c gap ih =>
      rw [List.cons_append, words_cons (h c List.mem_cons_self)]
      exact ih fun d hd => h d (List.mem_cons_of_mem _ hd)

/-- A word in front of a blank. -/
theorem words_word (hne : l ≠ []) (h : ∀ c ∈ l, p c = false) (hc : p c = true) (l' : List α) :
    words p (l ++ c :: l') = l :: words p l' := by
  rw [words_append_cons hc, words_singleton hne h, List.singleton_append]

/-- The first word of a text that does not begin with a blank. -/
theorem words_takeWhile (hne : l.takeWhile (fun c => !p c) ≠ []) :
    ∃ rest, words p l = l.takeWhile (fun c => !p c) :: rest := by
  have hword : ∀ c ∈ l.takeWhile (fun c => !p c), p c = false := fun c hc => by simpa using List.mem_takeWhile_imp hc
  have hsplit := List.takeWhile_append_dropWhile (p := fun c => !p c) (l := l)
  cases hd : l.dropWhile (fun c => !p c) with
  | nil =>
      rw [hd, List.append_nil] at hsplit
      exact ⟨[], by rw [← words_singleton hne hword, hsplit]⟩
  | cons c rest =>
      have hc : p c = true := by
        have := List.head?_dropWhile_not (fun c => !p c) l
        simpa [hd] using this
      refine ⟨words p rest, ?_⟩
      rw [← words_word hne hword hc, ← hd, hsplit]

end Words

/-! ## Lines -/

/-- A line without the carriage return at its end. -/
def chomp (line : List Char) : List Char := (stripSuffix ['\r'] line).getD line

/-- `str::lines`; what follows the last line feed is a line when it is not empty. -/
def lines (text : List Char) : List (List Char) :=
  let parts := text.splitOn '\n'
  parts.dropLast.map chomp ++ parts.getLast?.toList.filter fun line => !line.isEmpty

@[simp] theorem lines_nil : lines [] = [] := by simp [lines]

theorem lines_cons {line : List Char} (h : '\n' ∉ line) (text : List Char) :
    lines (line ++ '\n' :: text) = chomp line :: lines text := by
  obtain ⟨part, parts, hparts⟩ := List.exists_cons_of_ne_nil (List.splitOn_ne_nil '\n' text)
  simp [lines, List.splitOn_append_cons_self_of_not_mem h, hparts]

theorem lines_flatMap {l : List (List Char)} (h : ∀ line ∈ l, '\n' ∉ line) :
    lines (l.flatMap fun line => line ++ ['\n']) = l.map chomp := by
  induction l with
  | nil => simp
  | cons line l ih =>
      rw [List.flatMap_cons, List.append_assoc, List.singleton_append, lines_cons (h line List.mem_cons_self),
        ih fun line' hl => h line' (List.mem_cons_of_mem _ hl), List.map_cons]

theorem chomp_eq (line : List Char) : chomp line = line ∨ line = chomp line ++ ['\r'] := by
  unfold chomp
  cases h : stripSuffix ['\r'] line with
  | none => exact .inl rfl
  | some line' => exact .inr (stripSuffix_eq_some.mp h)

@[simp] theorem chomp_concat (line : List Char) : chomp (line ++ ['\r']) = line := by
  rw [chomp, stripSuffix_eq_some.mpr rfl, Option.getD_some]

theorem chomp_of_concat {c : Char} (hc : c ≠ '\r') (line : List Char) : chomp (line ++ [c]) = line ++ [c] := by
  rcases chomp_eq (line ++ [c]) with h | h
  · exact h
  · exact absurd (List.append_inj' h rfl).2 (by simpa using hc)

/-- What a line begins with stays, up to a character that is no carriage return. -/
theorem chomp_append (l : List Char) {c : Char} (hc : c ≠ '\r') (rest : List Char) :
    chomp (l ++ c :: rest) = l ++ c :: chomp rest := by
  rcases List.eq_nil_or_concat rest with rfl | ⟨rest, d, rfl⟩
  · simpa [chomp, stripSuffix] using chomp_of_concat hc l
  · rw [List.concat_eq_append]
    have hassoc : l ++ c :: (rest ++ [d]) = (l ++ c :: rest) ++ [d] := by simp
    by_cases hd : d = '\r'
    · subst hd
      rw [hassoc, chomp_concat, chomp_concat]
    · rw [hassoc, chomp_of_concat hd, chomp_of_concat hd, hassoc]

/-- The carriage return is a blank. -/
theorem words_chomp {p : Char → Bool} (hp : p '\r' = true) (line : List Char) :
    words p (chomp line) = words p line := by
  rcases chomp_eq line with h | h
  · rw [h]
  · rw [h, words_concat hp, ← h]

/-! ## Ends -/

/-- A text without blanks and a blank behind it. -/
theorem trim_word_concat {α : Type} {p : α → Bool} {c : α} {l : List α} (hne : l ≠ []) (h : ∀ c ∈ l, p c = false)
    (hc : p c = true) : trim p (l ++ [c]) = l := by
  obtain ⟨a, l, rfl⟩ := List.exists_cons_of_ne_nil hne
  have ha := h a List.mem_cons_self
  have hlast := h _ (List.getLast_mem hne)
  rw [trim, List.cons_append, List.dropWhile_cons_of_neg (by simp [ha]), ← List.cons_append,
    List.rdropWhile_concat_pos _ _ _ hc, List.rdropWhile_eq_self_iff]
  intro _
  simp [hlast]

section Blank

variable {α : Type} {p : α → Bool} {c : α}

theorem trim_cons (hc : p c = true) (l : List α) : trim p (c :: l) = trim p l := by
  rw [trim, List.dropWhile_cons_of_pos hc, trim]

theorem trim_blank_concat (hc : p c = true) (l : List α) : trim p (l ++ [c]) = trim p l := by
  rw [trim, trim, List.dropWhile_append]
  split
  · rename_i h
    simp [List.isEmpty_iff.mp h, hc]
  · rw [List.rdropWhile_concat_pos _ _ _ hc]

end Blank

theorem trim_chomp {p : Char → Bool} (hp : p '\r' = true) (line : List Char) : trim p (chomp line) = trim p line := by
  rcases chomp_eq line with h | h
  · rw [h]
  · rw [h, trim_blank_concat hp, ← h]

theorem mem_intercalate {α : Type} {sep a : α} {l : List (List α)} (h : a ∈ [sep].intercalate l) :
    a = sep ∨ ∃ x ∈ l, a ∈ x := by
  induction l with
  | nil => simp at h
  | cons x l ih =>
      cases l with
      | nil => exact .inr ⟨x, List.mem_cons_self, by simpa using h⟩
      | cons y l =>
          rw [List.intercalate_cons_cons, List.append_assoc] at h
          rcases List.mem_append.mp h with h | h
          · exact .inr ⟨x, List.mem_cons_self, h⟩
          · rcases List.mem_append.mp h with h | h
            · exact .inl (List.mem_singleton.mp h)
            · exact (ih h).imp_right fun ⟨z, hz, ha⟩ => ⟨z, List.mem_cons_of_mem _ hz, ha⟩

section Trim

variable {α : Type} [DecidableEq α]

def trimEndLoop (suffix : List α) : Nat → List α → List α
  | 0, l => l
  | n + 1, l =>
      match stripSuffix suffix l with
      | some l' => trimEndLoop suffix n l'
      | none => l

/-- `str::trim_end_matches` of a text that is not empty. -/
def trimEndMatches (suffix l : List α) : List α := trimEndLoop suffix l.length l

theorem trimEndMatches_of_not_suffix {suffix l : List α} (h : ¬ suffix <:+ l) : trimEndMatches suffix l = l := by
  have hnone : stripSuffix suffix l = none := if_neg h
  unfold trimEndMatches
  cases l with
  | nil => rfl
  | cons a l => simp [trimEndLoop, hnone]

end Trim

end Lib
