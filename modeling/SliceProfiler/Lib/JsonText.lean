import Mathlib.Data.String.Basic

/-!
# JSON texts

A compact printer of JSON trees whose strings are written by any encoding of characters, and a parser of all JSON
texts. A text is a list of characters.
-/

namespace Lib

namespace JsonText

/-- The parts of a number as it is written. -/
structure Number where
  negative : Bool
  whole : Nat
  fraction : List (Fin 10)
  exponent : Option (Bool × Nat)
deriving DecidableEq

inductive Tree where
  | null
  | bool (b : Bool)
  | number (n : Number)
  | string (s : List Char)
  | array (items : List Tree)
  | object (members : List (List Char × Tree))

/-! ## Printing -/

def digitsOf (n : Nat) : List Char := Nat.toDigits 10 n

def printFraction : List (Fin 10) → List Char
  | [] => []
  | digits => '.' :: digits.map fun d : Fin 10 => d.val.digitChar

def printExponent : Option (Bool × Nat) → List Char
  | none => []
  | some (true, n) => 'e' :: '-' :: digitsOf n
  | some (false, n) => 'e' :: digitsOf n

def Number.print (n : Number) : List Char :=
  (if n.negative then ['-'] else []) ++ (digitsOf n.whole ++ (printFraction n.fraction ++ printExponent n.exponent))

variable (enc : Char → List Char)

def printString (s : List Char) : List Char := '"' :: (s.flatMap enc ++ ['"'])

mutual
def Tree.print : Tree → List Char
  | .null => ['n', 'u', 'l', 'l']
  | .bool true => ['t', 'r', 'u', 'e']
  | .bool false => ['f', 'a', 'l', 's', 'e']
  | .number n => n.print
  | .string s => printString enc s
  | .array [] => ['[', ']']
  | .array (t :: items) => '[' :: (t.print ++ printItems items)
  | .object [] => ['{', '}']
  | .object ((key, t) :: members) => '{' :: (printString enc key ++ ':' :: (t.print ++ printMembers members))

/-- The rest of an array. -/
def printItems : List Tree → List Char
  | [] => [']']
  | t :: items => ',' :: (t.print ++ printItems items)

/-- The rest of an object. -/
def printMembers : List (List Char × Tree) → List Char
  | [] => ['}']
  | (key, t) :: members => ',' :: (printString enc key ++ ':' :: (t.print ++ printMembers members))
end

/-! ## Parsing -/

def isSpace (c : Char) : Bool := c = ' ' || c = '\t' || c = '\n' || c = '\r'

def skipSpaces (l : List Char) : List Char := l.dropWhile isSpace

/-- The text behind a word. -/
def readWord (word l : List Char) : Option (List Char) :=
  if word <+: l then some (l.drop word.length) else none

/-- The digits in front of the text, at least one. -/
def readDigits (l : List Char) : Option (List Char × List Char) :=
  if l.takeWhile Char.isDigit = [] then none else some (l.takeWhile Char.isDigit, l.dropWhile Char.isDigit)

/-- A whole number does not begin with a zero that has digits behind it. -/
def readWhole (l : List Char) : Option (Nat × List Char) :=
  (readDigits l).bind fun (digits, l) =>
    if digits.head? = some '0' ∧ digits.length ≠ 1 then none else some (Nat.ofDigitChars 10 digits 0, l)

def readFraction (l : List Char) : Option (List (Fin 10) × List Char) :=
  if l.head? = some '.' then
    (readDigits l.tail).map fun (digits, l) => (digits.map fun c => Fin.ofNat 10 (c.toNat - 48), l)
  else some ([], l)

def readExponent (l : List Char) : Option (Option (Bool × Nat) × List Char) :=
  if l.head? = some 'e' ∨ l.head? = some 'E' then
    let negative := l.tail.head? = some '-'
    let l := if negative ∨ l.tail.head? = some '+' then l.tail.tail else l.tail
    (readDigits l).map fun (digits, l) => (some (decide negative, Nat.ofDigitChars 10 digits 0), l)
  else some (none, l)

/-- The parts of a number behind its sign. -/
def readParts (negative : Bool) (l : List Char) : Option (Number × List Char) :=
  (readWhole l).bind fun (whole, l) =>
    (readFraction l).bind fun (fraction, l) =>
      (readExponent l).map fun (exponent, l) => (⟨negative, whole, fraction, exponent⟩, l)

def readNumber (l : List Char) : Option (Number × List Char) :=
  if l.head? = some '-' then readParts true l.tail else readParts false l

def hexValue (c : Char) : Option Nat :=
  if c.isDigit then some (c.toNat - 48)
  else if 'a' ≤ c ∧ c ≤ 'f' then some (c.toNat - 87)
  else if 'A' ≤ c ∧ c ≤ 'F' then some (c.toNat - 55)
  else none

def readHex : List Char → Option (Nat × List Char)
  | a :: b :: c :: d :: l => do
      let a ← hexValue a
      let b ← hexValue b
      let c ← hexValue c
      let d ← hexValue d
      some (((a * 16 + b) * 16 + c) * 16 + d, l)
  | _ => none

/-- The character behind a backslash and the letter `u`. Two code units of a pair are one character. -/
def readUnicode (l : List Char) : Option (Char × List Char) := do
  let (high, l) ← readHex l
  if 0xD800 ≤ high ∧ high ≤ 0xDBFF then
    let l ← readWord ['\\', 'u'] l
    let (low, l) ← readHex l
    if 0xDC00 ≤ low ∧ low ≤ 0xDFFF then
      some (Char.ofNat (0x10000 + (high - 0xD800) * 0x400 + (low - 0xDC00)), l)
    else none
  else if 0xDC00 ≤ high ∧ high ≤ 0xDFFF then none
  else some (Char.ofNat high, l)

def unescape (c : Char) : Option Char :=
  if c = '"' ∨ c = '\\' ∨ c = '/' then some c
  else if c = 'b' then some (Char.ofNat 8)
  else if c = 'f' then some (Char.ofNat 12)
  else if c = 'n' then some '\n'
  else if c = 'r' then some '\r'
  else if c = 't' then some '\t'
  else none

/-- One character inside a string. -/
def readChar : List Char → Option (Char × List Char)
  | [] => none
  | c :: l =>
      if c = '\\' then
        if l.head? = some 'u' then readUnicode l.tail
        else l.head?.bind fun e => (unescape e).map fun c => (c, l.tail)
      else if c = '"' ∨ c.toNat < 0x20 then none
      else some (c, l)

/-- The rest of a string. -/
def readString : Nat → List Char → Option (List Char × List Char)
  | 0, _ => none
  | fuel + 1, l =>
      if l.head? = some '"' then some ([], l.tail)
      else (readChar l).bind fun (c, l) => (readString fuel l).map fun (s, l) => (c :: s, l)

/-- The name of a member and the colon behind it. -/
def readKey (l : List Char) : Option (List Char × List Char) :=
  match skipSpaces l with
  | '"' :: l =>
      (readString l.length l).bind fun (key, l) => (readWord [':'] (skipSpaces l)).map fun l => (key, l)
  | _ => none

mutual
def readTree : Nat → List Char → Option (Tree × List Char)
  | 0, _ => none
  | fuel + 1, l =>
      match skipSpaces l with
      | [] => none
      | c :: l =>
          if c = '{' then
            if (skipSpaces l).head? = some '}' then some (.object [], (skipSpaces l).tail)
            else (readMembers fuel l).map fun (members, l) => (.object members, l)
          else if c = '[' then
            if (skipSpaces l).head? = some ']' then some (.array [], (skipSpaces l).tail)
            else (readItems fuel l).map fun (items, l) => (.array items, l)
          else if c = '"' then (readString l.length l).map fun (s, l) => (.string s, l)
          else if c = 'n' then (readWord ['u', 'l', 'l'] l).map fun l => (.null, l)
          else if c = 't' then (readWord ['r', 'u', 'e'] l).map fun l => (.bool true, l)
          else if c = 'f' then (readWord ['a', 'l', 's', 'e'] l).map fun l => (.bool false, l)
          else (readNumber (c :: l)).map fun (n, l) => (.number n, l)

/-- The items of an array that is not empty, up to its end. -/
def readItems : Nat → List Char → Option (List Tree × List Char)
  | 0, _ => none
  | fuel + 1, l =>
      (readTree fuel l).bind fun (t, l) =>
        if (skipSpaces l).head? = some ',' then
          (readItems fuel (skipSpaces l).tail).map fun (items, l) => (t :: items, l)
        else (readWord [']'] (skipSpaces l)).map fun l => ([t], l)

def readMembers : Nat → List Char → Option (List (List Char × Tree) × List Char)
  | 0, _ => none
  | fuel + 1, l =>
      (readKey l).bind fun (key, l) =>
        (readTree fuel l).bind fun (t, l) =>
          if (skipSpaces l).head? = some ',' then
            (readMembers fuel (skipSpaces l).tail).map fun (members, l) => ((key, t) :: members, l)
          else (readWord ['}'] (skipSpaces l)).map fun l => ([(key, t)], l)
end

/-- The tree of a JSON text. -/
def parse (l : List Char) : Option Tree :=
  (readTree l.length l).bind fun (t, l) => if skipSpaces l = [] then some t else none

end JsonText

end Lib
