import StackLang.Text.CharClass

/-!
# Ignorable characters

The characters that leave no trace when they are shown on their own: those with the Unicode
property Default_Ignorable_Code_Point.  The Hangul fillers are among them although they are letters.
Quoted text spells them out, so that none of them goes unnoticed.
-/

namespace StackLang.Text

/-- The characters with the property Default_Ignorable_Code_Point. -/
def ignorables : CharClass where
  boundaries := [
    0xAD, 0xAE, 0x34F, 0x350, 0x61C, 0x61D, 0x115F, 0x1161, 0x17B4, 0x17B6, 0x180B, 0x1810, 0x200B,
    0x2010, 0x202A, 0x202F, 0x2060, 0x2070, 0x3164, 0x3165, 0xFE00, 0xFE10, 0xFEFF, 0xFF00, 0xFFA0,
    0xFFA1, 0xFFF0, 0xFFF9, 0x1BCA0, 0x1BCA4, 0x1D173, 0x1D17B, 0xE0000, 0xE1000]

/-- A character that leaves no trace on its own. -/
def isIgnorable (c : Char) : Bool :=
  ignorables.contains c

end StackLang.Text
