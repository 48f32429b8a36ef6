import SliceProfiler.Lib.JsonText

/-!
# Hexadecimal numbers

The parser of unsigned numbers to the base 16, and what it makes of the digits of a number.
-/

namespace Lib

open JsonText

variable {max n result : Nat} {l l' : List Char}

theorem hexValue_digitChar : ∀ n < 16, hexValue (Nat.digitChar n) = some n := by decide

def parseHexDigits (result : Nat) : List Char → Option Nat
  | [] => some result
  | c :: l => (hexValue c).bind fun d => parseHexDigits (16 * result + d) l

/-- The text is a number up to `max`, perhaps behind a plus sign. -/
def parseHex (max : Nat) : List Char → Option Nat
  | [] => none
  | ['+'] => none
  | '+' :: digits => (parseHexDigits 0 digits).filter (· ≤ max)
  | digits => (parseHexDigits 0 digits).filter (· ≤ max)

def hexDigits (n : Nat) : List Char := Nat.toDigits 16 n

/-- `width`: the least number of digits. -/
def paddedHex (width n : Nat) : List Char := List.replicate (width - (hexDigits n).length) '0' ++ hexDigits n

theorem parseHexDigits_append :
    parseHexDigits result (l ++ l') = (parseHexDigits result l).bind (parseHexDigits · l') := by
  induction l generalizing result with
  | nil => rfl
  | cons c l ih => cases h : hexValue c <;> simp [parseHexDigits, h, ih]

theorem parseHexDigits_zeros (k : Nat) (l : List Char) :
    parseHexDigits 0 (List.replicate k '0' ++ l) = parseHexDigits 0 l := by
  induction k with
  | zero => rfl
  | succ k ih => simpa [List.replicate_succ, parseHexDigits, hexValue] using ih

theorem parseHexDigits_hexDigits (n : Nat) : parseHexDigits 0 (hexDigits n) = some n := by
  induction n using Nat.strong_induction_on with
  | _ n ih =>
      by_cases h : n < 16
      · simp [hexDigits, Nat.toDigits_of_lt_base h, parseHexDigits, hexValue_digitChar n h]
      · have hdiv := ih (n / 16) (by omega)
        rw [hexDigits] at hdiv ⊢
        rw [Nat.toDigits_of_base_le (by decide) (by omega), parseHexDigits_append, hdiv]
        simp [parseHexDigits, hexValue_digitChar _ (Nat.mod_lt n (by decide)), Nat.div_add_mod]

theorem parseHexDigits_paddedHex (width n : Nat) : parseHexDigits 0 (paddedHex width n) = some n := by
  rw [paddedHex, parseHexDigits_zeros, parseHexDigits_hexDigits]

theorem width_le_paddedHex (width n : Nat) : width ≤ (paddedHex width n).length := by
  simp only [paddedHex, List.length_append, List.length_replicate]
  omega

theorem isHex_hexDigits (n : Nat) : ∀ c ∈ hexDigits n, ∃ d < 16, c = Nat.digitChar d := by
  induction n using Nat.strong_induction_on with
  | _ n ih =>
      by_cases h : n < 16
      · simpa [hexDigits, Nat.toDigits_of_lt_base h] using ⟨n, h, rfl⟩
      · rw [hexDigits, Nat.toDigits_of_base_le (by decide) (by omega)]
        intro c hc
        rcases List.mem_append.mp hc with hc | hc
        · exact ih (n / 16) (by omega) c hc
        · exact ⟨n % 16, Nat.mod_lt n (by decide), List.mem_singleton.mp hc⟩

theorem isHex_paddedHex (width n : Nat) : ∀ c ∈ paddedHex width n, ∃ d < 16, c = Nat.digitChar d := by
  intro c hc
  rcases List.mem_append.mp hc with hc | hc
  · exact ⟨0, by decide, List.eq_of_mem_replicate hc⟩
  · exact isHex_hexDigits n c hc

/-- A character that is no digit occurs in no number. -/
theorem not_mem_paddedHex {c : Char} (hc : ∀ d < 16, c ≠ Nat.digitChar d) (width n : Nat) : c ∉ paddedHex width n := by
  intro h
  obtain ⟨d, hd, rfl⟩ := isHex_paddedHex width n c h
  exact hc d hd rfl

theorem paddedHex_ne_nil (width n : Nat) : paddedHex width n ≠ [] := by
  simp [paddedHex, hexDigits, Nat.toDigits_ne_nil]

/-- A number is read back, with any number of digits. -/
theorem parseHex_paddedHex (width : Nat) (h : n ≤ max) : parseHex max (paddedHex width n) = some n := by
  have hplus : '+' ∉ paddedHex width n := not_mem_paddedHex (by decide) width n
  have hread := parseHexDigits_paddedHex width n
  have hne := paddedHex_ne_nil width n
  generalize paddedHex width n = digits at *
  unfold parseHex
  split <;> simp_all
end Lib
