/-
The classes of characters that the readers of text tell apart.

* `isBlank` — white space, the 25 characters of the Unicode property White_Space;
* `isAlphabetic`, `isAlphanumeric` — the Unicode properties, with the ASCII part spelled out;
* `isNameStart`, `isNameChar` — the characters that names are made of;
* `hexDigitValue?` — the value of a hexadecimal digit.

Design notes: digits of numbers are the ten ASCII digits (`Char.isDigit`) throughout, although
names may hold digits of any script.
-/
import DocQuery.Text.Property.Alphabetic
import DocQuery.Text.Property.Numeric

namespace DocQuery.Text

/-- White space: the Unicode property White_Space. -/
def isBlank (c : Char) : Bool :=
  let code := c.toNat
  (0x09 ≤ code && code ≤ 0x0D) || code = 0x20 || code = 0x85 || code = 0xA0 || code = 0x1680 ||
    (0x2000 ≤ code && code ≤ 0x200A) || code = 0x2028 || code = 0x2029 || code = 0x202F ||
    code = 0x205F || code = 0x3000

/-- Alphabetic characters of every script. -/
def isAlphabetic (c : Char) : Bool :=
  if c.toNat < 128 then c.isAlpha else Property.alphabetic.contains c.toNat

/-- Numeric characters of every script. -/
def isNumeric (c : Char) : Bool :=
  if c.toNat < 128 then c.isDigit else Property.numeric.contains c.toNat

/-- Alphabetic and numeric characters of every script. -/
def isAlphanumeric (c : Char) : Bool :=
  isAlphabetic c || isNumeric c

/-- A name starts with a letter or an underscore. -/
def isNameStart (c : Char) : Bool :=
  c == '_' || isAlphabetic c

/-- A name goes on with letters, numeric characters, underscores and dollar signs. -/
def isNameChar (c : Char) : Bool :=
  c == '_' || c == '$' || isAlphanumeric c

/-- The value of a hexadecimal digit, in upper or lower case. -/
def hexDigitValue? (c : Char) : Option Nat :=
  let code := c.toNat
  if 0x30 ≤ code && code ≤ 0x39 then some (code - 0x30)
  else if 0x41 ≤ code && code ≤ 0x46 then some (code - 0x41 + 10)
  else if 0x61 ≤ code && code ≤ 0x66 then some (code - 0x61 + 10)
  else none

/-- Hexadecimal digits. -/
def isHexDigit (c : Char) : Bool :=
  (hexDigitValue? c).isSome

/-- A text without the white space at its start. -/
def dropBlank (cs : List Char) : List Char :=
  cs.dropWhile isBlank

/-- A text without the white space at both ends. -/
def trim (cs : List Char) : List Char :=
  (dropBlank (dropBlank cs).reverse).reverse

end DocQuery.Text
