import SliceProfiler.Lib.JsonText

/-!
# Reading what was printed

The parser reads a printed tree back whenever it reads back the encoding of each character.
-/

namespace Lib

namespace JsonText

/-! ## Numbers -/

/-- The text does not continue a number. -/
structure Ends (r : List Char) : Prop where
  digit : ∀ c, r.head? = some c → c.isDigit = false
  point : r.head? ≠ some '.'
  exponent : ¬ (r.head? = some 'e' ∨ r.head? = some 'E')

variable {r : List Char}

theorem readDigits_append {digits : List Char} (hd : ∀ c ∈ digits, c.isDigit = true) (hne : digits ≠ [])
    (hr : ∀ c, r.head? = some c → c.isDigit = false) : readDigits (digits ++ r) = some (digits, r) := by
  have htake : r.takeWhile Char.isDigit = [] := by
    cases r with
    | nil => rfl
    | cons c r => simp [hr c rfl]
  have hdrop : r.dropWhile Char.isDigit = r := by
    cases r with
    | nil => rfl
    | cons c r => simp [hr c rfl]
  rw [readDigits, List.takeWhile_append_of_pos hd, List.dropWhile_append_of_pos hd, htake, hdrop, List.append_nil,
    if_neg hne]

theorem isDigit_digitsOf (n : Nat) : ∀ c ∈ digitsOf n, c.isDigit = true :=
  fun _ hc => Nat.isDigit_of_mem_toDigits (by decide) (by decide) hc

theorem digitsOf_ne_nil (n : Nat) : digitsOf n ≠ [] := Nat.toDigits_ne_nil

/-- A number begins with a digit. -/
theorem digitsOf_eq_cons (n : Nat) : ∃ c l, digitsOf n = c :: l ∧ c.isDigit = true := by
  obtain ⟨c, l, hc⟩ := List.exists_cons_of_ne_nil (digitsOf_ne_nil n)
  exact ⟨c, l, hc, isDigit_digitsOf n c (by simp [hc])⟩

theorem ne_of_isDigit {c d : Char} (hc : c.isDigit = true) (hd : d.isDigit = false) : c ≠ d := by
  rintro rfl
  rw [hd] at hc
  cases hc

theorem head_digitsOf (n : Nat) (hn : 0 < n) : (digitsOf n).head? ≠ some '0' := by
  induction n using Nat.strong_induction_on with
  | _ n ih =>
      rcases Nat.lt_or_ge n 10 with h | h
      · rw [digitsOf, Nat.toDigits_of_lt_base h]
        simpa using hn.ne'
      · have hsplit : digitsOf n = digitsOf (n / 10) ++ [(n % 10).digitChar] := Nat.toDigits_of_base_le (by decide) h
        rw [hsplit, List.head?_append_of_ne_nil _ (digitsOf_ne_nil _)]
        exact ih (n / 10) (by omega) (by omega)

theorem readWhole_print (n : Nat) (hr : ∀ c, r.head? = some c → c.isDigit = false) :
    readWhole (digitsOf n ++ r) = some (n, r) := by
  have hzero : ¬ ((digitsOf n).head? = some '0' ∧ (digitsOf n).length ≠ 1) := by
    rintro ⟨hz, hl⟩
    rcases Nat.eq_zero_or_pos n with rfl | hn
    · exact hl rfl
    · exact head_digitsOf n hn hz
  simp only [readWhole, readDigits_append (isDigit_digitsOf n) (digitsOf_ne_nil n) hr, Option.bind_some, if_neg hzero]
  rw [digitsOf, Nat.ofDigitChars_toDigits (by decide) (by decide)]

theorem readFraction_print (fraction : List (Fin 10)) (hd : ∀ c, r.head? = some c → c.isDigit = false)
    (hp : r.head? ≠ some '.') : readFraction (printFraction fraction ++ r) = some (fraction, r) := by
  cases fraction with
  | nil => exact if_neg hp
  | cons d digits =>
      have hdigits : ∀ c ∈ (d :: digits).map (fun d : Fin 10 => d.val.digitChar), c.isDigit = true := by
        intro c hc
        obtain ⟨d, -, rfl⟩ := List.mem_map.mp hc
        rw [Nat.isDigit_digitChar]
        exact decide_eq_true d.isLt
      have hback : ∀ d : Fin 10, Fin.ofNat 10 (d.val.digitChar.toNat - 48) = d := by decide
      have hread := readDigits_append hdigits (by simp) hd
      have hprint : printFraction (d :: digits) = '.' :: (d :: digits).map fun d : Fin 10 => d.val.digitChar := rfl
      rw [readFraction, hprint, List.cons_append, List.head?_cons, if_pos rfl, List.tail_cons, hread]
      simp only [Option.map_some, List.map_map, Function.comp_def, hback, List.map_id']

theorem readExponent_print (exponent : Option (Bool × Nat)) (hr : Ends r) :
    readExponent (printExponent exponent ++ r) = some (exponent, r) := by
  rcases exponent with _ | ⟨negative, n⟩
  · exact if_neg hr.exponent
  · have hdigits := readDigits_append (isDigit_digitsOf n) (digitsOf_ne_nil n) hr.digit
    have hvalue : Nat.ofDigitChars 10 (digitsOf n) 0 = n := Nat.ofDigitChars_toDigits (by decide) (by decide)
    cases negative with
    | true =>
        simp [readExponent, printExponent, hdigits, hvalue]
    | false =>
        obtain ⟨c, l, hc, hdigit⟩ := digitsOf_eq_cons n
        have hminus : c ≠ '-' := ne_of_isDigit hdigit rfl
        have hplus : c ≠ '+' := ne_of_isDigit hdigit rfl
        have hhead : (digitsOf n ++ r).head? = some c := by simp [hc]
        simp [readExponent, printExponent, hhead, hminus, hplus, hdigits, hvalue]

theorem head_printExponent (exponent : Option (Bool × Nat)) (hr : Ends r) :
    (∀ c, (printExponent exponent ++ r).head? = some c → c.isDigit = false) ∧
      (printExponent exponent ++ r).head? ≠ some '.' := by
  rcases exponent with _ | ⟨negative, n⟩
  · exact ⟨hr.digit, hr.point⟩
  · cases negative <;> exact ⟨by rintro c ⟨⟩; rfl, by simp [printExponent]⟩

theorem head_printFraction (fraction : List (Fin 10)) (hd : ∀ c, r.head? = some c → c.isDigit = false) :
    ∀ c, (printFraction fraction ++ r).head? = some c → c.isDigit = false := by
  cases fraction with
  | nil => exact hd
  | cons d digits =>
      rintro c ⟨⟩
      rfl

/-- A number begins with its sign or with a digit. -/
theorem head_print_number (n : Number) : ∃ c l, n.print = c :: l ∧ (c = '-' ∨ c.isDigit = true) := by
  obtain ⟨c, l, hc, hdigit⟩ := digitsOf_eq_cons n.whole
  rw [Number.print, hc]
  cases n.negative with
  | true => exact ⟨_, _, rfl, .inl rfl⟩
  | false => exact ⟨_, _, rfl, .inr hdigit⟩

theorem readNumber_print (n : Number) (hr : Ends r) : readNumber (n.print ++ r) = some (n, r) := by
  obtain ⟨negative, whole, fraction, exponent⟩ := n
  obtain ⟨hd, hp⟩ := head_printExponent exponent hr
  have hwhole := readWhole_print whole (head_printFraction fraction hd)
  have hrest : (digitsOf whole ++ (printFraction fraction ++ (printExponent exponent ++ r))).head? ≠ some '-' := by
    obtain ⟨c, l, hc, hdigit⟩ := digitsOf_eq_cons whole
    rw [hc]
    exact fun h => ne_of_isDigit hdigit rfl (Option.some.inj h)
  have hread : ∀ b, readParts b (digitsOf whole ++ (printFraction fraction ++ (printExponent exponent ++ r))) =
      some (⟨b, whole, fraction, exponent⟩, r) := fun b => by
    simp only [readParts, hwhole, Option.bind_some, readFraction_print fraction hd hp, readExponent_print exponent hr,
      Option.map_some]
  simp only [Number.print, List.append_assoc]
  cases negative with
  | true => exact hread true
  | false =>
      simp only [readNumber, Bool.false_eq_true, ↓reduceIte, List.nil_append, hrest]
      exact hread false

/-! ## Strings -/

/-- Each encoded character is read back, and does not begin with the quote that ends a string. -/
structure Decodes (enc : Char → List Char) : Prop where
  read : ∀ c l, readChar (enc c ++ l) = some (c, l)
  quote : ∀ c l, (enc c ++ l).head? ≠ some '"'

variable {enc : Char → List Char}

theorem readString_print (h : Decodes enc) (s : List Char) {n : Nat} (hn : s.length < n) (r : List Char) :
    readString n (s.flatMap enc ++ '"' :: r) = some (s, r) := by
  induction s generalizing n with
  | nil =>
      obtain ⟨n, rfl⟩ := Nat.exists_eq_succ_of_ne_zero (Nat.ne_zero_of_lt hn)
      rfl
  | cons c s ih =>
      obtain ⟨n, rfl⟩ := Nat.exists_eq_succ_of_ne_zero (Nat.ne_zero_of_lt hn)
      rw [List.flatMap_cons, List.append_assoc, readString, if_neg (h.quote c _)]
      simp only [h.read, Option.bind_some, ih (Nat.lt_of_succ_lt_succ hn), Option.map_some]

theorem Decodes.length_le (h : Decodes enc) (s : List Char) : s.length ≤ (s.flatMap enc).length := by
  induction s with
  | nil => exact Nat.le_refl 0
  | cons c s ih =>
      have hne : enc c ≠ [] := by
        intro hc
        have := h.quote c ['"']
        rw [hc] at this
        exact this rfl
      have hpos := List.length_pos_iff.mpr hne
      rw [List.flatMap_cons, List.length_append, List.length_cons]
      omega

/-- The text behind the opening quote of a printed string. -/
theorem readString_printed (h : Decodes enc) (s r : List Char) :
    readString (s.flatMap enc ++ '"' :: r).length (s.flatMap enc ++ '"' :: r) = some (s, r) := by
  refine readString_print h s ?_ r
  have := h.length_le s
  rw [List.length_append, List.length_cons]
  omega

theorem skipSpaces_of_not {c : Char} (hc : isSpace c = false) (l : List Char) : skipSpaces (c :: l) = c :: l := by
  simp [skipSpaces, hc]

theorem readWord_append (word r : List Char) : readWord word (word ++ r) = some r := by
  rw [readWord, if_pos (List.prefix_append _ _), List.drop_left]

theorem readKey_print (h : Decodes enc) (key r : List Char) :
    readKey (printString enc key ++ ':' :: r) = some (key, r) := by
  have hword : readWord [':'] (':' :: r) = some r := readWord_append [':'] r
  have hkey := readString_printed h key (':' :: r)
  simp only [readKey, printString, List.cons_append, List.append_assoc,
    skipSpaces_of_not (by decide : isSpace '"' = false), List.nil_append, hkey, Option.bind_some,
    skipSpaces_of_not (by decide : isSpace ':' = false), hword, Option.map_some]

/-! ## Trees -/

/-- A printed tree does not begin with a space or with the end of an array or an object. -/
theorem head_print (enc : Char → List Char) (t : Tree) :
    ∃ c l, t.print enc = c :: l ∧ isSpace c = false ∧ c ≠ ']' ∧ c ≠ '}' := by
  cases t with
  | null => exact ⟨_, _, rfl, by decide⟩
  | bool b => cases b <;> exact ⟨_, _, rfl, by decide⟩
  | number n =>
      obtain ⟨c, l, hc, hstart⟩ := head_print_number n
      refine ⟨c, l, by rw [Tree.print, hc], ?_⟩
      rcases hstart with rfl | hd
      · decide
      · refine ⟨?_, ne_of_isDigit hd rfl, ne_of_isDigit hd rfl⟩
        simp only [isSpace, Bool.or_eq_false_iff, decide_eq_false_iff_not]
        exact ⟨⟨⟨ne_of_isDigit hd rfl, ne_of_isDigit hd rfl⟩, ne_of_isDigit hd rfl⟩, ne_of_isDigit hd rfl⟩
  | string s => exact ⟨_, _, rfl, by decide⟩
  | array items => cases items <;> exact ⟨_, _, rfl, by decide⟩
  | object members => rcases members with _ | ⟨⟨key, t⟩, members⟩ <;> exact ⟨_, _, rfl, by decide⟩

theorem head_items (enc : Char → List Char) (items : List Tree) :
    ∃ c l, printItems enc items = c :: l ∧ (c = ',' ∨ c = ']') := by
  cases items with
  | nil => exact ⟨_, _, rfl, .inr rfl⟩
  | cons t items => exact ⟨_, _, rfl, .inl rfl⟩

theorem head_members (enc : Char → List Char) (members : List (List Char × Tree)) :
    ∃ c l, printMembers enc members = c :: l ∧ (c = ',' ∨ c = '}') := by
  rcases members with _ | ⟨⟨key, t⟩, members⟩
  · exact ⟨_, _, rfl, .inr rfl⟩
  · exact ⟨_, _, rfl, .inl rfl⟩

theorem ends_of_head {c : Char} (hc : c = ',' ∨ c = ']' ∨ c = '}') (l : List Char) : Ends (c :: l) := by
  constructor
  · rintro _ ⟨⟩
    rcases hc with rfl | rfl | rfl <;> rfl
  · rintro ⟨⟩
    revert hc
    decide
  · rintro (⟨⟨⟩⟩ | ⟨⟨⟩⟩) <;> revert hc <;> decide

theorem ends_nil : Ends [] := ⟨nofun, nofun, by simp⟩

theorem readTree_number {c : Char} {l : List Char} {n : Nat} (hc : c = '-' ∨ c.isDigit = true) :
    readTree (n + 1) (c :: l) = (readNumber (c :: l)).map fun (n, l) => (.number n, l) := by
  have hother : ∀ d, (d = '-' ∨ d.isDigit = true) = False → c ≠ d := by
    rintro d hd rfl
    rw [hd] at hc
    exact hc
  have hspace : isSpace c = false := by
    simp only [isSpace, Bool.or_eq_false_iff, decide_eq_false_iff_not]
    exact ⟨⟨⟨hother _ (by decide), hother _ (by decide)⟩, hother _ (by decide)⟩, hother _ (by decide)⟩
  simp only [readTree, skipSpaces_of_not hspace, hother '{' (by decide), hother '[' (by decide), hother '"' (by decide),
    hother 'n' (by decide), hother 't' (by decide), hother 'f' (by decide), ↓reduceIte]

mutual
theorem readTree_print (h : Decodes enc) (t : Tree) : ∀ n r, (t.print enc).length ≤ n → Ends r →
    readTree n (t.print enc ++ r) = some (t, r) := by
  intro n r hn hr
  obtain ⟨n, rfl⟩ : ∃ m, n = m + 1 := by
    obtain ⟨c, l, hc, -⟩ := head_print enc t
    rw [hc, List.length_cons] at hn
    exact ⟨n - 1, by omega⟩
  match t with
  | .null => rfl
  | .bool true => rfl
  | .bool false => rfl
  | .number x =>
      have hread := readNumber_print x hr
      obtain ⟨c, l, hc, hstart⟩ := head_print_number x
      rw [hc, List.cons_append] at hread
      rw [Tree.print, hc, List.cons_append, readTree_number hstart, hread]
      rfl
  | .string s =>
      have hread := readString_printed h s r
      simp only [Tree.print, printString, List.cons_append, List.append_assoc, List.nil_append, readTree,
        skipSpaces_of_not (by decide : isSpace '"' = false), (by decide : '"' ≠ '{'), (by decide : '"' ≠ '['),
        ↓reduceIte, hread, Option.map_some]
  | .array [] => rfl
  | .array (t :: items) =>
      rw [Tree.print, List.length_cons, List.length_append] at hn
      have hread := readItems_print h items t (readTree_print h t) n r (by omega)
      obtain ⟨c, l, hc, hspace, hclose, -⟩ := head_print enc t
      have hskip : skipSpaces (t.print enc ++ (printItems enc items ++ r)) =
          t.print enc ++ (printItems enc items ++ r) := by rw [hc]; exact skipSpaces_of_not hspace _
      have hfirst : (t.print enc ++ (printItems enc items ++ r)).head? ≠ some ']' := by
        rw [hc]
        rintro ⟨⟩
        exact hclose rfl
      simp only [Tree.print, List.cons_append, List.append_assoc, readTree,
        skipSpaces_of_not (by decide : isSpace '[' = false), (by decide : '[' ≠ '{'), hskip, hfirst, ↓reduceIte, hread,
        Option.map_some]
  | .object [] => rfl
  | .object ((key, t) :: members) =>
      rw [Tree.print, List.length_cons, List.length_append, List.length_cons, List.length_append] at hn
      have hread := readMembers_print h members key t (readTree_print h t) n r (by omega)
      have hskip : ∀ l, skipSpaces (printString enc key ++ l) = printString enc key ++ l :=
        fun l => skipSpaces_of_not (by decide : isSpace '"' = false) _
      have hfirst : ∀ l, (printString enc key ++ l).head? ≠ some '}' := by
        intro l
        rintro ⟨⟩
      simp only [Tree.print, List.cons_append, List.append_assoc, readTree,
        skipSpaces_of_not (by decide : isSpace '{' = false), hskip, hfirst, ↓reduceIte, hread, Option.map_some]

theorem readItems_print (h : Decodes enc) (items : List Tree) (t : Tree)
    (ht : ∀ n r, (t.print enc).length ≤ n → Ends r → readTree n (t.print enc ++ r) = some (t, r)) (n : Nat)
    (r : List Char) (hn : (t.print enc).length + (printItems enc items).length ≤ n) :
    readItems n (t.print enc ++ (printItems enc items ++ r)) = some (t :: items, r) := by
  obtain ⟨c, l, hc, hsep⟩ := head_items enc items
  obtain ⟨n, rfl⟩ : ∃ m, n = m + 1 := ⟨n - 1, by rw [hc, List.length_cons] at hn; omega⟩
  have hread : readTree n (t.print enc ++ (printItems enc items ++ r)) = some (t, printItems enc items ++ r) := by
    refine ht n _ (by rw [hc, List.length_cons] at hn; omega) ?_
    rw [hc]
    exact ends_of_head (by tauto) _
  match items with
  | [] =>
      have hword : readWord [']'] (']' :: r) = some r := readWord_append [']'] r
      simp only [readItems, hread, Option.bind_some]
      simp only [printItems, List.cons_append, List.nil_append,
        skipSpaces_of_not (by decide : isSpace ']' = false), List.head?_cons, Option.some.injEq,
        (by decide : ']' ≠ ','), ↓reduceIte, hword, Option.map_some]
  | t' :: items =>
      rw [printItems, List.length_cons, List.length_append] at hn
      have hrest := readItems_print h items t' (readTree_print h t') n r (by omega)
      simp only [readItems, hread, Option.bind_some]
      simp only [printItems, List.cons_append, List.append_assoc,
        skipSpaces_of_not (by decide : isSpace ',' = false), List.head?_cons, ↓reduceIte, List.tail_cons, hrest,
        Option.map_some]

theorem readMembers_print (h : Decodes enc) (members : List (List Char × Tree)) (key : List Char) (t : Tree)
    (ht : ∀ n r, (t.print enc).length ≤ n → Ends r → readTree n (t.print enc ++ r) = some (t, r)) (n : Nat)
    (r : List Char) (hn : (t.print enc).length + (printMembers enc members).length ≤ n) :
    readMembers n (printString enc key ++ ':' :: (t.print enc ++ (printMembers enc members ++ r))) =
      some ((key, t) :: members, r) := by
  obtain ⟨c, l, hc, hsep⟩ := head_members enc members
  obtain ⟨n, rfl⟩ : ∃ m, n = m + 1 := ⟨n - 1, by rw [hc, List.length_cons] at hn; omega⟩
  have hkey := readKey_print h key (t.print enc ++ (printMembers enc members ++ r))
  have hread :
      readTree n (t.print enc ++ (printMembers enc members ++ r)) = some (t, printMembers enc members ++ r) := by
    refine ht n _ (by rw [hc, List.length_cons] at hn; omega) ?_
    rw [hc]
    exact ends_of_head (by tauto) _
  match members with
  | [] =>
      have hword : readWord ['}'] ('}' :: r) = some r := readWord_append ['}'] r
      simp only [readMembers, hkey, hread, Option.bind_some]
      simp only [printMembers, List.cons_append, List.nil_append,
        skipSpaces_of_not (by decide : isSpace '}' = false), List.head?_cons, Option.some.injEq,
        (by decide : '}' ≠ ','), ↓reduceIte, hword, Option.map_some]
  | (key', t') :: members =>
      rw [printMembers, List.length_cons, List.length_append, List.length_cons, List.length_append] at hn
      have hrest := readMembers_print h members key' t' (readTree_print h t') n r (by omega)
      simp only [readMembers, hkey, hread, Option.bind_some]
      simp only [printMembers, List.cons_append, List.append_assoc,
        skipSpaces_of_not (by decide : isSpace ',' = false), List.head?_cons, ↓reduceIte, List.tail_cons, hrest,
        Option.map_some]
end

theorem parse_print (h : Decodes enc) (t : Tree) : parse (t.print enc) = some t := by
  have hread := readTree_print h t _ [] (Nat.le_refl _) ends_nil
  rw [List.append_nil] at hread
  simp only [parse, hread, Option.bind_some]
  rfl

/-! ## Rewriting the characters of a text -/

/-- A character that the printer writes outside of strings. -/
def isMark (c : Char) : Bool :=
  c.isDigit || c ∈ ['[', ']', '{', '}', ',', ':', '"', '-', '.', 'e', 't', 'r', 'u', 'f', 'a', 'l', 's', 'n']

variable {f : Char → List Char}

theorem flatMap_of_fixed {l : List Char} (h : ∀ c ∈ l, f c = [c]) : l.flatMap f = l := by
  induction l with
  | nil => rfl
  | cons c l ih =>
      rw [List.flatMap_cons, h c List.mem_cons_self, ih fun d hd => h d (List.mem_cons_of_mem _ hd),
        List.singleton_append]

theorem isMark_digitsOf (n : Nat) : ∀ c ∈ digitsOf n, isMark c = true := fun c hc => by
  simp [isMark, isDigit_digitsOf n c hc]

theorem isMark_print_number (n : Number) : ∀ c ∈ n.print, isMark c = true := by
  obtain ⟨negative, whole, fraction, exponent⟩ := n
  have hfraction : ∀ c ∈ printFraction fraction, isMark c = true := by
    cases fraction with
    | nil => exact fun c hc => by cases hc
    | cons d digits =>
        intro c hc
        rcases List.mem_cons.mp hc with rfl | hc
        · decide
        · obtain ⟨d, -, rfl⟩ := List.mem_map.mp hc
          simp [isMark, Nat.isDigit_digitChar]
  have hexponent : ∀ c ∈ printExponent exponent, isMark c = true := by
    rcases exponent with _ | ⟨_ | _, n⟩
    · exact fun c hc => by cases hc
    · intro c hc
      rcases List.mem_cons.mp hc with rfl | hc
      · decide
      · exact isMark_digitsOf n c hc
    · intro c hc
      simp only [printExponent, List.mem_cons] at hc
      rcases hc with rfl | rfl | hc
      · decide
      · decide
      · exact isMark_digitsOf n c hc
  intro c hc
  simp only [Number.print, List.mem_append] at hc
  rcases hc with hc | hc | hc | hc
  · cases negative with
    | true => rw [List.mem_singleton.mp hc]; decide
    | false => cases hc
  · exact isMark_digitsOf whole c hc
  · exact hfraction c hc
  · exact hexponent c hc

theorem flatMap_printString (hf : ∀ c, isMark c = true → f c = [c]) (s : List Char) :
    (printString enc s).flatMap f = printString (fun c => (enc c).flatMap f) s := by
  simp only [printString, List.flatMap_cons, List.flatMap_append, List.flatMap_nil, List.append_nil, List.flatMap_assoc,
    hf '"' (by decide), List.cons_append, List.nil_append]

mutual
/-- A rewriting that leaves the marks alone is a rewriting of the encoded characters. -/
theorem flatMap_print (hf : ∀ c, isMark c = true → f c = [c]) (t : Tree) :
    (t.print enc).flatMap f = t.print fun c => (enc c).flatMap f := by
  have hfix : ∀ l : List Char, l.all isMark = true → l.flatMap f = l :=
    fun l hl => flatMap_of_fixed fun c hc => hf c (List.all_eq_true.mp hl c hc)
  match t with
  | .null => exact hfix ['n', 'u', 'l', 'l'] (by decide)
  | .bool true => exact hfix ['t', 'r', 'u', 'e'] (by decide)
  | .bool false => exact hfix ['f', 'a', 'l', 's', 'e'] (by decide)
  | .number n => exact flatMap_of_fixed fun c hc => hf c (isMark_print_number n c hc)
  | .string s => exact flatMap_printString hf s
  | .array [] => exact hfix ['[', ']'] (by decide)
  | .array (t :: items) =>
      simp only [Tree.print, List.flatMap_cons, List.flatMap_append, hf '[' (by decide), flatMap_print hf t,
        flatMap_printItems hf items, List.cons_append, List.nil_append]
  | .object [] => exact hfix ['{', '}'] (by decide)
  | .object ((key, t) :: members) =>
      simp only [Tree.print, List.flatMap_cons, List.flatMap_append, hf '{' (by decide), hf ':' (by decide),
        flatMap_printString hf key, flatMap_print hf t, flatMap_printMembers hf members, List.cons_append,
        List.nil_append]

theorem flatMap_printItems (hf : ∀ c, isMark c = true → f c = [c]) (items : List Tree) :
    (printItems enc items).flatMap f = printItems (fun c => (enc c).flatMap f) items := by
  match items with
  | [] => exact flatMap_of_fixed fun c hc => hf c (by rw [List.mem_singleton.mp hc]; decide)
  | t :: items =>
      simp only [printItems, List.flatMap_cons, List.flatMap_append, hf ',' (by decide), flatMap_print hf t,
        flatMap_printItems hf items, List.cons_append, List.nil_append]

theorem flatMap_printMembers (hf : ∀ c, isMark c = true → f c = [c]) (members : List (List Char × Tree)) :
    (printMembers enc members).flatMap f = printMembers (fun c => (enc c).flatMap f) members := by
  match members with
  | [] => exact flatMap_of_fixed fun c hc => hf c (by rw [List.mem_singleton.mp hc]; decide)
  | (key, t) :: members =>
      simp only [printMembers, List.flatMap_cons, List.flatMap_append, hf ',' (by decide), hf ':' (by decide),
        flatMap_printString hf key, flatMap_print hf t, flatMap_printMembers hf members, List.cons_append,
        List.nil_append]
end

/-! ## What an encoding looks like -/

theorem readHex_eq_some {l rest : List Char} {n : Nat} (h : readHex l = some (n, rest)) :
    ∃ a b c d, l = a :: b :: c :: d :: rest ∧ ∀ x ∈ [a, b, c, d], (hexValue x).isSome = true := by
  unfold readHex at h
  split at h
  · rename_i a b c d l
    simp only [Option.bind_eq_bind, Option.bind_eq_some_iff, Option.some.injEq, Prod.mk.injEq] at h
    obtain ⟨x, hx, y, hy, z, hz, w, hw, -, rfl⟩ := h
    exact ⟨a, b, c, d, rfl, by simp [hx, hy, hz, hw]⟩
  · cases h

theorem readWord_eq_some {word l rest : List Char} (h : readWord word l = some rest) : l = word ++ rest := by
  unfold readWord at h
  split at h
  · rename_i hp
    obtain ⟨l', rfl⟩ := hp
    simpa using h
  · cases h

/-- A character of an escape sequence. -/
def inEscape (c : Char) : Bool := (hexValue c).isSome || (unescape c).isSome || c ∈ ['\\', 'u']

theorem readUnicode_eq_some {l : List Char} {c : Char} (h : readUnicode l = some (c, [])) :
    ∀ x ∈ l, inEscape x = true := by
  have hin : ∀ x, (hexValue x).isSome = true → inEscape x = true := fun x hx => by simp [inEscape, hx]
  simp only [readUnicode, Option.bind_eq_bind, Option.bind_eq_some_iff, Prod.exists] at h
  obtain ⟨high, rest, hhigh, h⟩ := h
  obtain ⟨a₁, a₂, a₃, a₄, rfl, hhex⟩ := readHex_eq_some hhigh
  have hfirst : ∀ x ∈ [a₁, a₂, a₃, a₄], inEscape x = true := fun x hx => hin x (hhex x hx)
  split at h
  · simp only [Option.bind_eq_some_iff, Prod.exists] at h
    obtain ⟨rest', hword, low, rest'', hlow, h⟩ := h
    obtain ⟨b₁, b₂, b₃, b₄, rfl, hhex'⟩ := readHex_eq_some hlow
    obtain rfl := readWord_eq_some hword
    split at h
    · obtain ⟨-, rfl⟩ := Prod.mk.inj (Option.some.inj h)
      have hsecond : ∀ x ∈ [b₁, b₂, b₃, b₄], inEscape x = true := fun x hx => hin x (hhex' x hx)
      intro x hx
      have hx' : x ∈ [a₁, a₂, a₃, a₄] ∨ (x = '\\' ∨ x = 'u') ∨ x ∈ [b₁, b₂, b₃, b₄] := by
        simpa [or_assoc] using hx
      rcases hx' with hx | (rfl | rfl) | hx
      · exact hfirst x hx
      · decide
      · decide
      · exact hsecond x hx
    · cases h
  · split at h
    · cases h
    · obtain ⟨-, rfl⟩ := Prod.mk.inj (Option.some.inj h)
      exact hfirst

/-- A character is encoded as itself or as an escape sequence. -/
theorem Decodes.cases (h : Decodes enc) (c : Char) : enc c = [c] ∨ ∀ x ∈ enc c, inEscape x = true := by
  have hread := h.read c []
  rw [List.append_nil] at hread
  cases henc : enc c with
  | nil => rw [henc] at hread; cases hread
  | cons d l =>
      rw [henc, readChar] at hread
      split at hread
      · rename_i hd
        right
        subst hd
        split at hread
        · rename_i hu
          obtain ⟨l, rfl⟩ : ∃ l', l = 'u' :: l' := List.head?_eq_some_iff.mp hu
          intro x hx
          rcases List.mem_cons.mp hx with rfl | hx
          · decide
          · rcases List.mem_cons.mp hx with rfl | hx
            · decide
            · exact readUnicode_eq_some hread x hx
        · simp only [Option.bind_eq_some_iff, Option.map_eq_some_iff, Prod.mk.injEq] at hread
          obtain ⟨e, he, e₁, hesc, -, htail⟩ := hread
          obtain ⟨l, rfl⟩ := List.head?_eq_some_iff.mp he
          obtain rfl : l = [] := htail
          intro x hx
          rcases List.mem_cons.mp hx with rfl | hx
          · decide
          · rw [List.mem_singleton.mp hx]
            simp [inEscape, hesc]
      · split at hread
        · cases hread
        · obtain ⟨rfl, rfl⟩ := Prod.mk.inj (Option.some.inj hread)
          exact .inl rfl

end JsonText

end Lib
