import Mathlib.Data.List.DropRight
import Mathlib.Data.List.Infix

/-!
# Reading text

Operations of a text library on lists of characters, and the parser of unsigned decimal numbers.
-/

namespace Lib

section Parts

variable {α : Type} [DecidableEq α] {sep a : α} {suffix l l₁ l₂ : List α} {p : α → Bool}

/-- The list in front of a suffix, when the list ends with it. -/
def stripSuffix (suffix l : List α) : Option (List α) :=
  if suffix <:+ l then some (l.take (l.length - suffix.length)) else none

/-- The parts in front of the first separator and behind it. -/
def splitOnce (sep : α) : List α → Option (List α × List α)
  | [] => none
  | a :: l => if a = sep then some ([], l) else (splitOnce sep l).map fun x => (a :: x.1, x.2)

theorem stripSuffix_eq_some : stripSuffix suffix l = some l₁ ↔ l = l₁ ++ suffix := by
  unfold stripSuffix
  constructor
  · intro h
    split at h
    · rename_i hs
      obtain ⟨l', rfl⟩ := hs
      simpa using h
    · cases h
  · rintro rfl
    simp

theorem splitOnce_eq_some : splitOnce sep l = some (l₁, l₂) ↔ l = l₁ ++ sep :: l₂ ∧ sep ∉ l₁ := by
  induction l generalizing l₁ with
  | nil => simp [splitOnce]
  | cons b l ih =>
      rw [splitOnce]
      by_cases h : b = sep
      · cases l₁ with
        | nil => simp [h]
        | cons c l₁ =>
            simp only [h, ↓reduceIte, Option.some.injEq, Prod.mk.injEq, reduceCtorEq, false_and, List.cons_append,
              List.cons.injEq, List.mem_cons, not_or, false_iff]
            rintro ⟨⟨hc, -⟩, hne, -⟩
            exact hne hc
      · cases l₁ with
        | nil => simp [h]
        | cons c l₁ =>
            simp only [h, ↓reduceIte, Option.map_eq_some_iff, Prod.mk.injEq, Prod.exists, List.cons_append,
              List.cons.injEq, List.mem_cons, not_or]
            constructor
            · rintro ⟨x, y, hxy, ⟨rfl, rfl⟩, rfl⟩
              obtain ⟨hl, hm⟩ := ih.mp hxy
              exact ⟨⟨rfl, hl⟩, Ne.symm h, hm⟩
            · rintro ⟨⟨rfl, hl⟩, -, hm⟩
              exact ⟨l₁, l₂, ih.mpr ⟨hl, hm⟩, ⟨rfl, rfl⟩, rfl⟩

omit [DecidableEq α] in
/-- The list without the elements at its two ends that satisfy `p`. -/
def trim (p : α → Bool) (l : List α) : List α := (l.dropWhile p).rdropWhile p

omit [DecidableEq α] in
theorem dropWhile_concat_neg (h : p a = false) (l : List α) : (l ++ [a]).dropWhile p = l.dropWhile p ++ [a] := by
  induction l with
  | nil => simp [h]
  | cons b l ih =>
      by_cases hb : p b = true
      · simp [hb, ih]
      · simp [hb]

omit [DecidableEq α] in
/-- The trim keeps a last element that does not satisfy `p`. -/
theorem trim_concat (h : p a = false) (l : List α) : trim p (l ++ [a]) = l.dropWhile p ++ [a] := by
  rw [trim, dropWhile_concat_neg h]
  exact List.rdropWhile_concat_neg p _ a (by simp [h])

end Parts

/-! ## White space -/

/-- The characters that a Unicode text library takes for white space. -/
def isWhitespace (c : Char) : Bool :=
  c.toNat ∈ [0x20, 0x85, 0xA0, 0x1680, 0x2028, 0x2029, 0x202F, 0x205F, 0x3000] ||
    0x09 ≤ c.toNat && c.toNat ≤ 0x0D || 0x2000 ≤ c.toNat && c.toNat ≤ 0x200A

theorem isWhitespace_space : isWhitespace ' ' = true := by decide

theorem isWhitespace_tab : isWhitespace '\t' = true := by decide

theorem isWhitespace_return : isWhitespace '\r' = true := by decide

theorem not_isWhitespace_of_isDigit {c : Char} (h : c.isDigit = true) : isWhitespace c = false := by
  have hdigits : ∀ n < 58, 48 ≤ n → isWhitespace (Char.ofNat n) = false := by decide
  simp only [Char.isDigit, Bool.and_eq_true, decide_eq_true_eq] at h
  rw [← Char.ofNat_toNat c]
  exact hdigits c.toNat (Nat.lt_succ_of_le (UInt32.le_iff_toNat_le.mp h.2)) (UInt32.le_iff_toNat_le.mp h.1)

/-! ## Unsigned decimal numbers -/

inductive ParseIntError where
  | empty
  | invalidDigit
  | posOverflow
deriving DecidableEq

def ParseIntError.message : ParseIntError → String
  | .empty => "cannot parse integer from empty string"
  | .invalidDigit => "invalid digit found in string"
  | .posOverflow => "number too large to fit in target type"

/-- The loop over the digits of a number that is at most `max`. -/
def parseDigits (max result : Nat) : List Char → Except ParseIntError Nat
  | [] => .ok result
  | c :: rest =>
      if c.isDigit then
        if 10 * result ≤ max ∧ 10 * result + (c.toNat - '0'.toNat) ≤ max then
          parseDigits max (10 * result + (c.toNat - '0'.toNat)) rest
        else .error .posOverflow
      else .error .invalidDigit

def parseUnsigned (max : Nat) : List Char → Except ParseIntError Nat
  | [] => .error .empty
  | ['+'] => .error .invalidDigit
  | '+' :: digits => parseDigits max 0 digits
  | digits => parseDigits max 0 digits

/-- The text is a decimal number, perhaps behind a plus sign. -/
def Numeral (l : List Char) (n : Nat) : Prop := ∃ digits ≠ [], (l = digits ∨ l = '+' :: digits) ∧
  (∀ c ∈ digits, c.isDigit = true) ∧ Nat.ofDigitChars 10 digits 0 = n

variable {max n result : Nat} {l digits : List Char}

theorem le_ofDigitChars (digits : List Char) (n : Nat) : n ≤ Nat.ofDigitChars 10 digits n := by
  induction digits generalizing n with
  | nil => simp
  | cons c digits ih =>
      rw [Nat.ofDigitChars_cons]
      exact le_trans (by omega) (ih _)

theorem parseDigits_eq_ok (hr : result ≤ max) : parseDigits max result digits = .ok n ↔
    (∀ c ∈ digits, c.isDigit = true) ∧ Nat.ofDigitChars 10 digits result = n ∧ n ≤ max := by
  induction digits generalizing result with
  | nil =>
      simp only [parseDigits, Except.ok.injEq, List.not_mem_nil, false_implies, implies_true, Nat.ofDigitChars_nil,
        true_and]
      exact ⟨fun h => ⟨h, h ▸ hr⟩, fun h => h.1⟩
  | cons c digits ih =>
      rw [parseDigits, Nat.ofDigitChars_cons]
      by_cases hc : c.isDigit = true
      · rw [if_pos hc]
        split
        · rename_i hfit
          rw [ih hfit.2]
          simp [hc]
        · rename_i hfit
          simp only [reduceCtorEq, List.mem_cons, forall_eq_or_imp, false_iff, not_and]
          rintro - rfl hle
          have hge := (le_ofDigitChars digits (10 * result + (c.toNat - '0'.toNat))).trans hle
          exact hfit ⟨(Nat.le_add_right _ _).trans hge, hge⟩
      · simp [hc]

/-- The parser accepts the decimal numbers up to the bound. -/
theorem parseUnsigned_eq_ok : parseUnsigned max l = .ok n ↔ Numeral l n ∧ n ≤ max := by
  have hplus : ('+').isDigit = false := by decide
  unfold parseUnsigned Numeral
  split
  · simp
  · simp only [reduceCtorEq, false_iff, not_and]
    rintro ⟨digits, hne, heq | heq, hd, -⟩ -
    · have := hd '+' (heq ▸ List.mem_cons_self)
      rw [hplus] at this
      cases this
    · exact hne (List.cons.inj heq).2.symm
  · rename_i digits hne
    rw [parseDigits_eq_ok (Nat.zero_le _)]
    constructor
    · rintro ⟨hd, hn, hle⟩
      exact ⟨⟨digits, fun h => hne (by rw [h]), .inr rfl, hd, hn⟩, hle⟩
    · rintro ⟨⟨digits', -, heq | heq, hd, hn⟩, hle⟩
      · have := hd '+' (heq ▸ List.mem_cons_self)
        rw [hplus] at this
        cases this
      · obtain rfl := (List.cons.inj heq).2
        exact ⟨hd, hn, hle⟩
  · rename_i hne hplus' hsign
    rw [parseDigits_eq_ok (Nat.zero_le _)]
    constructor
    · rintro ⟨hd, hn, hle⟩
      exact ⟨⟨l, hne, .inl rfl, hd, hn⟩, hle⟩
    · rintro ⟨⟨digits', -, rfl | rfl, hd, hn⟩, hle⟩
      · exact ⟨hd, hn, hle⟩
      · exact absurd rfl (hsign digits')

end Lib
