import SliceProfiler.Lib.JsonText

/-!
# Data embedded in the report

The report holds the profile and the query as JSON texts inside script elements. A serializer determines how
the characters of a string are encoded.
-/

namespace SliceProfiler.Viewer

open Lib JsonText

/-- `str::replace` of a character. -/
def replace (c : Char) (text l : List Char) : List Char := l.flatMap fun d => if d = c then text else [d]

/-- The text of a tree, with the character encoding `enc` of the serializer. -/
def scriptSafeJson (enc : Char → List Char) (t : Tree) : List Char :=
  replace '>' ['\\', 'u', '0', '0', '3', 'e'] <|
    replace '<' ['\\', 'u', '0', '0', '3', 'c'] <|
      replace '&' ['\\', 'u', '0', '0', '2', '6'] (t.print enc)

/-- The encoding of `serde_json`. -/
def serdeEscape (c : Char) : List Char :=
  if c = '"' then ['\\', '"']
  else if c = '\\' then ['\\', '\\']
  else if c.toNat = 8 then ['\\', 'b']
  else if c = '\t' then ['\\', 't']
  else if c = '\n' then ['\\', 'n']
  else if c.toNat = 12 then ['\\', 'f']
  else if c = '\r' then ['\\', 'r']
  else if c.toNat < 0x20 then ['\\', 'u', '0', '0', Nat.digitChar (c.toNat / 16), Nat.digitChar (c.toNat % 16)]
  else [c]

end SliceProfiler.Viewer
