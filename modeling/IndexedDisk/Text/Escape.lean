/-!
# Escaped text

Two spellings of text that may hold characters a terminal cannot show. `Escape.ascii` writes
printable ASCII alone, `Escape.quoted` a quoted string.
-/

namespace IndexedDisk.Escape

/-- The digits of `n` in base 16, lower case and without leading zeros. -/
def hex (n : Nat) : String :=
  String.ofList (Nat.toDigits 16 n)

/-- A character by its number. -/
def byNumber (c : Char) : String :=
  "\\u\x7b" ++ hex c.toNat ++ "\x7d"

/-- A character from the blank to the tilde. -/
def isPrintable (c : Char) : Bool :=
  0x20 ≤ c.toNat && c.toNat ≤ 0x7e

/-- A character written in printable ASCII, quotes and backslashes escaped. -/
def asciiChar (c : Char) : String :=
  if c = '\t' then "\\t"
  else if c = '\r' then "\\r"
  else if c = '\n' then "\\n"
  else if c.toNat = 0x27 then "\\'"
  else if c = '"' then "\\\""
  else if c = '\\' then "\\\\"
  else if isPrintable c then c.toString
  else byNumber c

/-- Text written in printable ASCII. -/
def ascii (s : String) : String :=
  String.join (s.toList.map asciiChar)

/-- A character inside double quotes. Characters beyond ASCII stand for themselves. -/
def quotedChar (c : Char) : String :=
  if c = '\t' then "\\t"
  else if c = '\r' then "\\r"
  else if c = '\n' then "\\n"
  else if c.toNat = 0 then "\\0"
  else if c = '"' then "\\\""
  else if c = '\\' then "\\\\"
  else if isPrintable c || 0x80 ≤ c.toNat then c.toString
  else byNumber c

/-- Text in double quotes. -/
def quoted (s : String) : String :=
  "\"" ++ String.join (s.toList.map quotedChar) ++ "\""

/--
A byte of a file as it is printed: printable ASCII as itself, and any other byte as a backslash
and its number in base 16.
-/
def byte (b : UInt8) : String :=
  if 0x20 ≤ b && b ≤ 0x7e then (Char.ofUInt8 b).toString else "\\" ++ hex b.toNat

end IndexedDisk.Escape
