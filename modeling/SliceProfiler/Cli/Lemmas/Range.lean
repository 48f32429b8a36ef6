import SliceProfiler.Cli.Range

/-!
# What the parser of a range accepts
-/

namespace SliceProfiler

open Lib

variable {b : Build} {value number : List Char} {n m : Nat}

theorem last_of_numeral {c : Char} {l : List Char} (h : Numeral (trim isWhitespace (l ++ [c])) n)
    (hw : isWhitespace c = false) : c.isDigit = true := by
  rw [trim_concat hw] at h
  obtain ⟨digits, hne, heq, hd, -⟩ := h
  have hlast : digits.getLast? = some c := by
    rcases heq with heq | heq
    · rw [← heq, List.getLast?_concat]
    · have hcons : ('+' :: digits).getLast? = some c := by rw [← heq, List.getLast?_concat]
      rwa [List.getLast?_cons_of_ne_nil hne] at hcons
  exact hd c (List.mem_of_getLast? hlast)

/-- The unit `s` is not the end of another unit. -/
theorem stripSuffix_seconds {c : Char} (hw : isWhitespace c = false) (hd : c.isDigit = false)
    (h : Numeral (trim isWhitespace number) n) : stripSuffix [c, 's'] (number ++ ['s']) = none := by
  cases hs : stripSuffix [c, 's'] (number ++ ['s']) with
  | none => rfl
  | some l =>
      have heq : number ++ ['s'] = (l ++ [c]) ++ ['s'] := by simpa using stripSuffix_eq_some.mp hs
      rw [List.append_cancel_right heq] at h
      rw [last_of_numeral h hw] at hd
      cases hd

theorem stripSuffix_other {c c' : Char} (h : c ≠ c') (number : List Char) :
    stripSuffix [c, 's'] (number ++ [c', 's']) = none := by
  cases hs : stripSuffix [c, 's'] (number ++ [c', 's']) with
  | none => rfl
  | some l =>
      have heq : number ++ [c', 's'] = l ++ [c, 's'] := stripSuffix_eq_some.mp hs
      obtain ⟨-, hc⟩ := List.append_inj' heq rfl
      exact absurd (List.cons.inj hc).1.symm h

theorem parseNumber_of_numeral (h : Numeral (trim isWhitespace number) n) (hn : n ≤ u64Max) :
    parseNumber b number m = b.fit (n * m) := by
  rw [parseNumber, parseUnsigned_eq_ok.mpr ⟨h, hn⟩]

theorem parseDurationNs_of_duration (h : Duration value n m) : parseDurationNs b value = b.fit (n * m) := by
  obtain ⟨hle, number, suffix, rfl, hu, hn⟩ := h
  have hself : ∀ s : List Char, stripSuffix s (number ++ s) = some number := fun s => stripSuffix_eq_some.mpr rfl
  have hns : ("ns").toList = ['n', 's'] := rfl
  have hus : ("us").toList = ['u', 's'] := rfl
  have hms : ("ms").toList = ['m', 's'] := rfl
  have hs : ("s").toList = ['s'] := rfl
  simp only [units, List.mem_cons, Prod.mk.injEq, List.not_mem_nil, or_false] at hu
  rcases hu with ⟨rfl, rfl⟩ | ⟨rfl, rfl⟩ | ⟨rfl, rfl⟩ | ⟨rfl, rfl⟩ <;>
    simp only [parseDurationNs, units, parseWithUnits]
  · rw [hself]
    exact parseNumber_of_numeral hn hle
  · rw [hns, hus, stripSuffix_other (by decide), hself]
    exact parseNumber_of_numeral hn hle
  · rw [hns, hus, hms, stripSuffix_other (by decide), stripSuffix_other (by decide), hself]
    exact parseNumber_of_numeral hn hle
  · rw [hns, hus, hms, hs, stripSuffix_seconds (by decide) (by decide) hn,
      stripSuffix_seconds (by decide) (by decide) hn,
      stripSuffix_seconds (by decide) (by decide) hn, hself]
    exact parseNumber_of_numeral hn hle

theorem parseDurationNs_of_not (h : ∀ n m, ¬ Duration value n m) :
    ∃ message, parseDurationNs b value = .error (.error message) := by
  have hloop : ∀ us, us ⊆ units → ∃ message, parseWithUnits b value us = .error (.error message) := by
    intro us hus
    induction us with
    | nil => exact ⟨_, rfl⟩
    | cons u us ih =>
        rw [parseWithUnits]
        cases hs : stripSuffix u.1.toList value with
        | none => exact ih fun v hv => hus (List.mem_cons_of_mem _ hv)
        | some number =>
            cases hp : parseUnsigned u64Max (trim isWhitespace number) with
            | error e => exact ⟨e.message, by simp only [parseNumber, hp]⟩
            | ok n =>
                obtain ⟨hn, hle⟩ := parseUnsigned_eq_ok.mp hp
                exact absurd ⟨hle, number, u.1, stripSuffix_eq_some.mp hs, hus List.mem_cons_self, hn⟩ (h n u.2)
  exact hloop units fun _ hu => hu

/-! ## The two times of a range -/

/-- `bounds.from_ns + parse_duration_ns(value)?` -/
def timeAt (b : Build) (base : Nat) (value : List Char) : Except Failure Nat := do
  let duration ← parseDurationNs b value
  b.fit (base + duration)

variable {base : Nat}

theorem fit_of_le (b : Build) (h : n ≤ u64Max) : b.fit n = .ok n := if_pos h

theorem timeAt_of_le (h : Duration value n m) (hle : base + n * m ≤ u64Max) :
    timeAt b base value = .ok (base + n * m) := by
  rw [timeAt, parseDurationNs_of_duration h, fit_of_le b ((Nat.le_add_left _ _).trans hle)]
  exact fit_of_le b hle

theorem timeAt_panics (h : Duration value n m) (hgt : ¬ base + n * m ≤ u64Max) :
    timeAt .debug base value = .error .panic := by
  rw [timeAt, parseDurationNs_of_duration h, Build.fit]
  split
  · exact if_neg hgt
  · rfl

theorem timeAt_of_not (base : Nat) (h : ∀ n m, ¬ Duration value n m) :
    ∃ message, timeAt b base value = .error (.error message) := by
  obtain ⟨message, hm⟩ := parseDurationNs_of_not (b := b) h
  exact ⟨message, by rw [timeAt, hm]; rfl⟩

theorem parseTime_eq {text : String} {low high : List Char} (hs : splitOnce ':' text.toList = some (low, high))
    (b : Build) (range : TimeRange) : parseTime b text (some range) =
      timeAt b range.fromNs low >>= fun fromNs => timeAt b range.fromNs high >>= fun toNs =>
        ensure (¬ fromNs ≥ toNs) (.error "time must satisfy FROM < TO") >>= fun _ => .ok ⟨fromNs, toNs⟩ := by
  simp only [parseTime, timeAt, require_some, hs, ok_bind, bind_assoc]

section Times

variable {text : String} {range : TimeRange} {low high : List Char} {unit n' unit' : Nat}

/-- Two durations whose times fit are compared, and nothing else is. -/
theorem parseTime_of_durations (hs : splitOnce ':' text.toList = some (low, high)) (hn : Duration low n unit)
    (hfrom : range.fromNs + n * unit ≤ u64Max) (hn' : Duration high n' unit') (hto : range.fromNs + n' * unit' ≤ u64Max)
    (b : Build) : parseTime b text (some range) =
      ensure (¬ range.fromNs + n * unit ≥ range.fromNs + n' * unit') (.error "time must satisfy FROM < TO") >>=
        fun _ => .ok ⟨range.fromNs + n * unit, range.fromNs + n' * unit'⟩ := by
  rw [parseTime_eq hs, timeAt_of_le hn hfrom, timeAt_of_le hn' hto, ok_bind, ok_bind]

theorem parseTime_of_not_low (hs : splitOnce ':' text.toList = some (low, high))
    (hlow : ∀ n unit, ¬ Duration low n unit)
    (b : Build) : ∃ message, parseTime b text (some range) = .error (.error message) := by
  obtain ⟨message, hm⟩ := timeAt_of_not (b := b) range.fromNs hlow
  exact ⟨message, by rw [parseTime_eq hs, hm]; rfl⟩

theorem parseTime_of_not_high (hs : splitOnce ':' text.toList = some (low, high)) (hn : Duration low n unit)
    (hfrom : range.fromNs + n * unit ≤ u64Max) (hhigh : ∀ n unit, ¬ Duration high n unit) (b : Build) :
    ∃ message, parseTime b text (some range) = .error (.error message) := by
  obtain ⟨message, hm⟩ := timeAt_of_not (b := b) range.fromNs hhigh
  exact ⟨message, by rw [parseTime_eq hs, timeAt_of_le hn hfrom, ok_bind, hm]; rfl⟩

end Times

end SliceProfiler
