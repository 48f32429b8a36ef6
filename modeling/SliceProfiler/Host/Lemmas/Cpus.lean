import SliceProfiler.Host.Cpus
import SliceProfiler.Lib.Words

/-!
# The list of the processors
-/

namespace SliceProfiler

open Lib

variable {range : List Char} {cpus : List Nat} {online : String} {parallelism : Except String Nat}

/-- A range is accepted when both its numbers are, in order. -/
theorem cpuRange_eq_ok : cpuRange range = .ok cpus ↔ ∃ r : CpuSpan, r.ReadFrom range ∧ cpus = r.ids := by
  simp only [cpuRange, bind_eq_ok, mapError_eq_ok, parseUnsigned_eq_ok, ensure_eq_ok, exists_const, not_lt,
    Except.ok.injEq]
  constructor
  · rintro ⟨first, ⟨hfirst, -⟩, last, ⟨hlast, hfits⟩, hle, rfl⟩
    exact ⟨⟨first, last, hle, hfits⟩, ⟨hfirst, hlast⟩, rfl⟩
  · rintro ⟨r, ⟨hfirst, hlast⟩, rfl⟩
    exact ⟨r.first, ⟨hfirst, r.ordered.trans r.fits⟩, r.last, ⟨hlast, r.fits⟩, r.ordered, rfl⟩

theorem mapM_cpuRange_eq_ok {ranges : List (List Char)} {l : List (List Nat)} : ranges.mapM cpuRange = .ok l ↔
    ∃ spans : List CpuSpan, List.Forall₂ (fun range r => r.ReadFrom range) ranges spans ∧
      l = spans.map CpuSpan.ids := by
  rw [mapM_eq_ok]
  constructor
  · intro h
    induction h with
    | nil => exact ⟨[], .nil, rfl⟩
    | cons hab _ ih =>
        obtain ⟨r, hr, rfl⟩ := cpuRange_eq_ok.mp hab
        obtain ⟨spans, hspans, rfl⟩ := ih
        exact ⟨r :: spans, .cons hr hspans, rfl⟩
  · rintro ⟨spans, h, rfl⟩
    rw [List.forall₂_map_right_iff]
    exact h.imp fun _ r hr => cpuRange_eq_ok.mpr ⟨r, hr, rfl⟩

theorem availableCpuIds_eq_ok : availableCpuIds parallelism (some online) = .ok cpus ↔
    cpus ≠ [] ∧ ∃ spans : List CpuSpan, List.Forall₂ (fun range r => r.ReadFrom range) (cpuRanges online) spans ∧
      cpus = spans.flatMap CpuSpan.ids := by
  simp only [availableCpuIds, bind_eq_ok, ensure_eq_ok, exists_const, mapM_cpuRange_eq_ok, Except.ok.injEq]
  constructor
  · rintro ⟨l, ⟨spans, h, rfl⟩, hne, rfl⟩
    rw [← List.flatMap_def] at hne ⊢
    exact ⟨hne, spans, h, rfl⟩
  · rintro ⟨hne, spans, h, rfl⟩
    rw [List.flatMap_def] at hne ⊢
    exact ⟨_, ⟨spans, h, rfl⟩, hne, rfl⟩

theorem mem_ids {r : CpuSpan} {cpu : Nat} : cpu ∈ r.ids ↔ r.first ≤ cpu ∧ cpu ≤ r.last := by
  have := r.ordered
  rw [CpuSpan.ids, List.mem_range'_1]
  omega

theorem ids_ne_nil (r : CpuSpan) : r.ids ≠ [] :=
  List.ne_nil_of_mem (mem_ids.mpr ⟨Nat.le_refl _, r.ordered⟩)

/-- Increasing spans have increasing processors. -/
theorem ids_strict {spans : List CpuSpan} (h : spans.Pairwise fun r r' => r.last < r'.first) :
    (spans.flatMap CpuSpan.ids).Pairwise (· < ·) := by
  refine List.pairwise_flatMap.mpr ⟨fun r _ => List.pairwise_lt_range', h.imp fun hlt x hx y hy => ?_⟩
  exact (mem_ids.mp hx).2.trans_lt (hlt.trans_le (mem_ids.mp hy).1)

/-! ## The text of the kernel -/

theorem numeral_toDigits (n : Nat) : Numeral (Nat.toDigits 10 n) n :=
  ⟨_, Nat.toDigits_ne_nil, .inl rfl, fun _ hc => Nat.isDigit_of_mem_toDigits (by decide) (by decide) hc,
    Nat.ofDigitChars_ten_toDigits⟩

theorem not_mem_toDigits {c : Char} (hc : c.isDigit = false) (n : Nat) : c ∉ Nat.toDigits 10 n := by
  intro h
  rw [Nat.isDigit_of_mem_toDigits (by decide) (by decide) h] at hc
  cases hc

theorem readFrom_text (r : CpuSpan) : r.ReadFrom r.text := by
  unfold CpuSpan.ReadFrom CpuSpan.text
  split
  · rename_i he
    have hnone : splitOnce '-' (Nat.toDigits 10 r.first) = none := by
      cases h : splitOnce '-' (Nat.toDigits 10 r.first) with
      | none => rfl
      | some x =>
          have heq := (splitOnce_eq_some.mp h).1
          exact absurd (heq ▸ by simp : '-' ∈ Nat.toDigits 10 r.first) (not_mem_toDigits (by decide) _)
    rw [hnone]
    exact ⟨numeral_toDigits _, he ▸ numeral_toDigits _⟩
  · have hsplit : splitOnce '-' (Nat.toDigits 10 r.first ++ '-' :: Nat.toDigits 10 r.last) =
        some (Nat.toDigits 10 r.first, Nat.toDigits 10 r.last) :=
      splitOnce_eq_some.mpr ⟨rfl, not_mem_toDigits (by decide) _⟩
    rw [hsplit]
    exact ⟨numeral_toDigits _, numeral_toDigits _⟩

theorem text_digits (r : CpuSpan) : r.text ≠ [] ∧ ∀ c ∈ r.text, c.isDigit = true ∨ c = '-' := by
  have hdigits : ∀ n, ∀ c ∈ Nat.toDigits 10 n, c.isDigit = true ∨ c = '-' := fun n c hc =>
    .inl (Nat.isDigit_of_mem_toDigits (by decide) (by decide) hc)
  unfold CpuSpan.text
  split
  · exact ⟨Nat.toDigits_ne_nil, hdigits _⟩
  · refine ⟨by simp, fun c hc => ?_⟩
    rcases List.mem_append.mp hc with hc | hc
    · exact hdigits _ c hc
    · rcases List.mem_cons.mp hc with rfl | hc
      · exact .inr rfl
      · exact hdigits _ c hc

theorem cpuRanges_onlineText {spans : List CpuSpan} (hne : spans ≠ []) :
    cpuRanges (onlineText spans) = spans.map CpuSpan.text := by
  have htext : ∀ x ∈ spans.map CpuSpan.text, x ≠ [] ∧ ∀ c ∈ x, c.isDigit = true ∨ c = '-' := by
    rintro x hx
    obtain ⟨r, -, rfl⟩ := List.mem_map.mp hx
    exact text_digits r
  have hcomma : ∀ x ∈ spans.map CpuSpan.text, ',' ∉ x := by
    intro x hx hm
    rcases (htext x hx).2 ',' hm with h | h
    · revert h; decide
    · revert h; decide
  have hword : ∀ c ∈ [','].intercalate (spans.map CpuSpan.text), isWhitespace c = false := by
    intro c hc
    rcases mem_intercalate hc with rfl | ⟨x, hx, hc⟩
    · decide
    · rcases (htext x hx).2 c hc with h | rfl
      · exact not_isWhitespace_of_isDigit h
      · decide
  have hnil : [','].intercalate (spans.map CpuSpan.text) ≠ [] := by
    intro h
    have := congrArg (List.splitOn ',') h
    rw [List.splitOn_intercalate ',' hcomma (by simpa using hne), List.splitOn_nil] at this
    have hmem : ([] : List Char) ∈ spans.map CpuSpan.text := by rw [this]; exact List.mem_singleton_self _
    exact (htext _ hmem).1 rfl
  rw [cpuRanges, onlineText, String.toList_ofList, trim_word_concat hnil hword (by decide),
    List.splitOn_intercalate ',' hcomma (by simpa using hne), List.filter_eq_self.mpr]
  intro x hx
  simpa using (htext x hx).1

end SliceProfiler
