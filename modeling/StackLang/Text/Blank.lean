import StackLang.Text.CharClass

/-!
# Blank characters

The characters that separate tokens and that are trimmed from numeric input: those with the
Unicode property White_Space.
-/

namespace StackLang.Text

/-- The characters with the property White_Space. -/
def blanks : CharClass where
  boundaries := [
    0x9, 0xE, 0x20, 0x21, 0x85, 0x86, 0xA0, 0xA1, 0x1680, 0x1681, 0x2000, 0x200B, 0x2028, 0x202A,
    0x202F, 0x2030, 0x205F, 0x2060, 0x3000, 0x3001]

/-- A character that separates tokens. -/
def isBlank (c : Char) : Bool :=
  blanks.contains c

/-- Drops the blank characters at both ends. -/
def trim (cs : List Char) : List Char :=
  ((cs.dropWhile isBlank).reverse.dropWhile isBlank).reverse

end StackLang.Text
