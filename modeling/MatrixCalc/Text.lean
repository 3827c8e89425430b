/-!
# Characters of a text

The characters with the Unicode property `White_Space`, text without the blanks around it, and text
between double quotes.
-/

namespace MatrixCalc.Text

/-- Whether a character is in one of some ranges of code points, both ends included. -/
def isWithin (ranges : List (Nat × Nat)) (c : Char) : Bool :=
  ranges.any fun r => r.1 ≤ c.toNat && c.toNat ≤ r.2

/-! ## §1 Blanks -/

/-- The characters with the property `White_Space`. -/
def blankRanges : List (Nat × Nat) :=
  [(0x09, 0x0d), (0x20, 0x20), (0x85, 0x85), (0xa0, 0xa0), (0x1680, 0x1680), (0x2000, 0x200a),
    (0x2028, 0x2029), (0x202f, 0x202f), (0x205f, 0x205f), (0x3000, 0x3000)]

def isBlank (c : Char) : Bool := isWithin blankRanges c

/-- A text without the blanks before its first and after its last other character. -/
def trim (cs : List Char) : List Char :=
  ((cs.dropWhile isBlank).reverse.dropWhile isBlank).reverse

/-- The table holds twenty-five characters. -/
example : (blankRanges.map fun r => r.2 + 1 - r.1).sum = 25 := by decide

/-! ## §2 Quotes -/

/-- The control characters, the format characters and the characters for private use. -/
def hiddenRanges : List (Nat × Nat) :=
  [(0x00, 0x1f), (0x7f, 0x9f), (0xad, 0xad), (0x600, 0x605), (0x61c, 0x61c), (0x6dd, 0x6dd),
    (0x70f, 0x70f), (0x890, 0x891), (0x8e2, 0x8e2), (0x180e, 0x180e), (0x200b, 0x200f),
    (0x202a, 0x202e), (0x2060, 0x2064), (0x2066, 0x206f), (0xe000, 0xf8ff), (0xfeff, 0xfeff),
    (0xfff9, 0xfffb), (0x110bd, 0x110bd), (0x110cd, 0x110cd), (0x13430, 0x1343f),
    (0x1bca0, 0x1bca3), (0x1d173, 0x1d17a), (0xe0001, 0xe0001), (0xe0020, 0xe007f),
    (0xf0000, 0xffffd), (0x100000, 0x10fffd)]

/-- Whether a character is written by its number: all blanks are but the space, and so is what is
hidden. Two groups that are written by number as well are left out here, and stand for themselves:
the characters that extend the one before them, and the code points without a character. -/
def isNumbered (c : Char) : Bool := c != ' ' && (isBlank c || isWithin hiddenRanges c)

def escape (c : Char) : List Char :=
  if c = '\x22' then ['\x5c', '\x22']
  else if c = '\x5c' then ['\x5c', '\x5c']
  else if c = '\t' then ['\x5c', 't']
  else if c = '\n' then ['\x5c', 'n']
  else if c = '\r' then ['\x5c', 'r']
  else if c = '\x00' then ['\x5c', '0']
  else if isNumbered c then ['\x5c', 'u', '\x7b'] ++ Nat.toDigits 16 c.toNat ++ ['\x7d']
  else [c]

/-- A text between double quotes. -/
def quoted (s : String) : String :=
  String.ofList ('\x22' :: s.toList.flatMap escape ++ ['\x22'])

/-- A tab and a quote are written with a backslash, a form feed by its number. -/
example : quoted "a\t\"\x0cb\x00" = "\"a\\t\\\"\\u\x7bc\x7db\\0\"" := by decide +kernel

end MatrixCalc.Text
